import Tombstash.Recover

set_option autoImplicit false

namespace Tombstash

variable {serial : Prop}

-- What the constructor replays, the older log first.
def replayedWrites (disk : Disk Bytes) : List Write := replayFile disk flushingWalName ++ replayFile disk walName

theorem replayed_logged (disk : Disk Bytes) : ∀ write ∈ replayedWrites disk, Logged (writeRecord write) := by
  have file : ∀ name, ∀ write ∈ replayFile disk name, Logged (writeRecord write) := by
    intro name write member
    obtain ⟨rec, inside, rfl⟩ := List.mem_map.mp member
    cases data : fileData disk name with
    | none =>
        rw [data] at inside
        cases inside
    | some bytes =>
        rw [data] at inside
        have logged := (replay_inverse bytes).2.1 rec inside
        unfold recordWrite
        split <;> exact ⟨rfl, rfl, logged.keyFits, by first | exact logged.valueFits | exact Nat.zero_le _⟩
  intro write member
  rcases List.mem_append.mp member with flushing | wal
  · exact file _ write flushing
  · exact file _ write wal

-- Its first steps in a directory with a MANIFEST.
def startOps (m : ManifestData) (orphans : List DiskOp) : List DiskOp :=
  .create walName :: .create (vlogName m.currentGen) :: orphans

-- Its last steps, after the flush of what it has replayed.
def dropFlushing (hadFlushing : Bool) : List DiskOp := if hadFlushing then [.unlink flushingWalName, .fsyncDir] else []

theorem drop_flushing_files (hadFlushing : Bool) :
    ∀ op ∈ dropFlushing hadFlushing, ∀ name ∈ op.touches, name ∈ walFiles := by
  cases hadFlushing <;> decide

theorem finish_recovery_move (cfg : Config) (db next : DB) (hadFlushing : Bool) (ops : List DiskOp)
    (free : db.hasFlushing = false) (done : finishRecovery cfg db hadFlushing = .ok (next, ops)) :
    ∃ kind front, (kind = .flushed ∨ kind = .idle) ∧ Move cfg [] db kind next front [] ∧
    ops = front ++ dropFlushing hadFlushing ∧
      (hadFlushing = true → next.memtable.isEmpty = true) ∧ (hadFlushing = false → kind = .idle ∧ next = db) := by
  rw [finishRecovery] at done
  cases hadFlushing with
  | false =>
      cases done
      exact ⟨.idle, [], .inr rfl, .rest, rfl, nofun, fun _ => ⟨rfl, rfl⟩⟩
  | true =>
      rw [if_pos rfl] at done
      obtain ⟨⟨flushed, front⟩, flush, done⟩ := bind_returns _ _ _ done
      cases done
      obtain ⟨⟨kind, plain, move⟩, empty, _⟩ := flush_locked_move cfg db _ front free flush
      exact ⟨kind, front, plain, move, rfl, fun _ => empty, nofun⟩

section Committed

variable (cfg : Config) (listing : List Bytes) (disk : Disk Bytes) (m : ManifestData) (text : Bytes)
    (ssts : List SSTable)
variable (committed : Committed serial disk m text ssts) (file : File)
    (present : disk (vlogName m.currentGen) = some file)

include committed present in
theorem manifest_loads :
    manifestRead (fileData disk manifestName) = .ok (some m) ∧
      loadManifest listing disk m = (cleanupOrphans (m.tables.map ManifestEntry.name) m.currentGen listing).map
        (fun orphans => (loadedDb m ssts file.data [], .create (vlogName m.currentGen) :: orphans)) := by
  obtain ⟨_, _, small, _⟩ := loaded_log disk m text ssts committed file present
  obtain ⟨_, _, ids⟩ := loaded_fields disk m text ssts committed
  have count : (tablesFrom 0 m.tables ssts).length = m.tables.length := by
    have length := congrArg List.length ids
    simpa [tableIds] using length
  have tables := open_tables_stored disk 0 m.tables ssts committed.prepared.tables
  have log : openLog (vlogName m.currentGen) m.currentGen ((fileData disk (vlogName m.currentGen)).getD []) =
      .ok (ValueLog.opened (vlogName m.currentGen) m.currentGen file.data) := by
    simp [fileData, present, openLog, Nat.not_le_of_lt small]
  refine ⟨?_, ?_⟩
  · rw [fileData, committed.manifest]
    exact manifest_round_trip m committed.prepared.fits
  · cases swept : cleanupOrphans (m.tables.map ManifestEntry.name) m.currentGen listing with
    | error e => simp [loadManifest, tables, log, swept, bind, Except.bind, Except.map]
    | ok orphans =>
        simp [loadManifest, tables, log, swept, bind, Except.bind, pure, Except.pure, Except.map,
          count, loadedDb, memOf]

include committed present in
theorem open_committed :
    openDB cfg listing disk = (cleanupOrphans (m.tables.map ManifestEntry.name) m.currentGen listing).bind
    (fun orphans =>
      (finishRecovery cfg (loadedDb m ssts file.data (replayedWrites disk)) (disk flushingWalName).isSome).bind
        (fun done =>
        .ok (done.1, startOps m orphans ++ done.2))) := by
  obtain ⟨manifest, loads⟩ := manifest_loads listing disk m text ssts committed file present
  cases swept : cleanupOrphans (m.tables.map ManifestEntry.name) m.currentGen listing with
  | error e => simp [openDB, manifest, loads, swept, bind, Except.bind, Except.map]
  | ok orphans =>
      simp only [openDB, manifest, loads, swept, bind, Except.bind, Except.map, pure, Except.pure]
      simp only [loadedDb, replayedWrites]
      cases finishRecovery cfg _ (disk flushingWalName).isSome with
      | error e => rfl
      | ok done => simp [startOps]

-- What an opening that succeeds has done: it cleans the directory and, where a
-- sealed log was left, flushes what it has replayed.
include committed present in
theorem opened_move (db : DB) (ops : List DiskOp) (opens : openDB cfg listing disk = .ok (db, ops)) :
    ∃ orphans kind front, cleanupOrphans (m.tables.map ManifestEntry.name) m.currentGen listing = .ok orphans ∧
      (kind = .flushed ∨ kind = .idle) ∧
      Move cfg [] (loadedDb m ssts file.data (replayedWrites disk)) kind db front [] ∧
      ops = startOps m orphans ++ (front ++ dropFlushing (disk flushingWalName).isSome) ∧
      ((disk flushingWalName).isSome = true → db.memtable.isEmpty = true) ∧
      ((disk flushingWalName).isSome = false → kind = .idle ∧
        db = loadedDb m ssts file.data (replayedWrites disk)) := by
  rw [open_committed cfg listing disk m text ssts committed file present] at opens
  obtain ⟨orphans, swept, opens⟩ := bind_returns _ _ _ opens
  obtain ⟨⟨next, rest⟩, finished, opens⟩ := bind_returns _ _ _ opens
  cases opens
  obtain ⟨kind, front, plain, move, rfl, empty, same⟩ := finish_recovery_move cfg _ _ _ rest rfl finished
  exact ⟨orphans, kind, front, swept, plain, move, rfl, empty, same⟩

theorem create_present (name : Bytes) (old : File) (there : disk name = some old) :
    (FsOp.create name).apply disk = disk := by
  funext other
  by_cases same : other = name
  · simp [FsOp.apply, same, set_same, there]
  · exact set_other disk name other _ same

include committed present in
theorem start_ops_committed (orphans : List DiskOp)
    (swept : cleanupOrphans (m.tables.map ManifestEntry.name) m.currentGen listing = .ok orphans) :
    Throughout (fun d => Committed serial d m text ssts) disk (startOps m orphans) ∧
      applyAll disk (startOps m orphans) (vlogName m.currentGen) = some file ∧
      ∀ name ∈ walFiles, applyAll disk (startOps m orphans) name = (FsOp.create walName).apply disk name := by
  obtain ⟨needed, wal⟩ := orphans_apart disk m text ssts committed.prepared listing orphans swept
  have created : Apart (manifestName :: neededFiles m) [.create walName] := by
    intro op member name touched inside
    rw [List.mem_singleton.mp member] at touched
    rw [List.mem_singleton.mp touched] at inside
    rcases List.mem_cons.mp inside with same | other
    · exact absurd same (by decide)
    · exact manifest_not_needed disk m text ssts committed.prepared walName (.inr rfl) other
  have first := committed_apart disk m text ssts [.create walName] committed created
  have atLog : (FsOp.create walName).apply disk (vlogName m.currentGen) = some file :=
    (apart_frame _ disk [.create walName] created _ (by simp [neededFiles])).trans present
  have unchanged := create_present ((FsOp.create walName).apply disk) (vlogName m.currentGen) file atLog
  have second := throughout_last _ _ _ first
  have third := committed_apart _ m text ssts orphans second needed
  refine ⟨?_, ?_, fun name inside => ?_⟩
  · rw [startOps, throughout_cons, throughout_cons, unchanged]
    exact ⟨committed, second, third⟩
  · rw [startOps, apply_all_cons, apply_all_cons, unchanged, apart_frame _ _ orphans needed _ (by simp [neededFiles])]
    exact atLog
  · rw [startOps, apply_all_cons, apply_all_cons, unchanged, apart_frame _ _ orphans wal name inside]

include committed present in
theorem opened_advances (db : DB) (orphans front : List DiskOp) (kind : Kind) (replayed : List Write)
    (swept : cleanupOrphans (m.tables.map ManifestEntry.name) m.currentGen listing = .ok orphans)
    (plain : kind = .flushed ∨ kind = .idle) (move : Move cfg [] (loadedDb m ssts file.data replayed) kind db front [])
    (valid : disk.Valid) (limits : Listable db) :
    Advances serial (loadedDb m ssts file.data replayed)
    (ValueLog.opened (vlogName m.currentGen) m.currentGen file.data) db
      kind.walOps (applyAll disk (startOps m orphans)) front := by
  obtain ⟨during, atLog, _⟩ := start_ops_committed listing disk m text ssts committed file present orphans swept
  have started := throughout_last _ _ _ during
  refine move_advances cfg _ 0 _ _ db kind front [] (loaded_sound _ m text ssts started file atLog replayed)
    (loaded_numbered _ m text ssts started file replayed) (loaded_bounds _ m text ssts started file replayed) move ?_
    (apply_all_valid _ _ valid) (loaded_backed _ m text ssts started file atLog replayed) limits ?_
  · rintro _ picks
    rcases plain with rfl | rfl <;> exact picks.elim
  · rcases plain with rfl | rfl <;> cases move <;> exact fun other => absurd rfl other

end Committed

-- A directory before its first MANIFEST: nothing but files of the constructor,
-- and nothing in them.
def blankFiles : List Bytes := [walName, vlogName 0, manifestTmpName]

structure Blank (disk : Disk Bytes) : Prop where
  few : ∀ name, (disk name).isSome = true → name ∈ blankFiles
  wal : ∀ file, disk walName = some file → file.data = []
  vlog : ∀ file, disk (vlogName 0) = some file → file.data = []

theorem blank_set (disk : Disk Bytes) (name : Bytes) (file : Option File) (blank : Blank disk)
    (known : name ∈ blankFiles) (empty : name ≠ manifestTmpName → ∀ f, file = some f → f.data = []) :
    Blank (disk.set name file) := by
  have at_ : ∀ other, other ≠ manifestTmpName → (∀ f, disk other = some f → f.data = []) →
      ∀ f, disk.set name file other = some f → f.data = [] := by
    intro other notTmp old f present
    by_cases same : other = name
    · rw [same, set_same] at present
      exact empty (same ▸ notTmp) f present
    · rw [set_other _ _ _ _ same] at present
      exact old f present
  refine ⟨fun other there => ?_, at_ walName (by decide) blank.wal, at_ (vlogName 0) (by decide) blank.vlog⟩
  by_cases same : other = name
  · exact same ▸ known
  · rw [set_other _ _ _ _ same] at there
    exact blank.few other there

theorem blank_create (disk : Disk Bytes) (name : Bytes) (blank : Blank disk)
    (known : name = walName ∨ name = vlogName 0) :
    Blank ((FsOp.create name).apply disk) := by
  have data : ∀ file, disk name = some file → file.data = [] := by
    rcases known with rfl | rfl
    · exact blank.wal
    · exact blank.vlog
  refine blank_set disk name _ blank (by rcases known with rfl | rfl <;> decide) (fun _ f created => ?_)
  cases before : disk name with
  | none =>
      rw [before] at created
      cases created
      rfl
  | some old =>
      rw [before] at created
      cases created
      exact data old before

theorem blank_tmp (disk : Disk Bytes) (op : DiskOp) (blank : Blank disk)
    (tmp : op = .truncate manifestTmpName ∨ (∃ bytes, op = .append manifestTmpName bytes) ∨
      op = .fsync manifestTmpName ∨ op = .unlink manifestTmpName) :
    Blank (op.apply disk) := by
  rcases tmp with rfl | ⟨bytes, rfl⟩ | rfl | rfl <;>
    exact blank_set disk manifestTmpName _ blank (by decide) (fun other => absurd rfl other)

section Blank

variable (cfg : Config) (listing : List Bytes) (disk : Disk Bytes) (blank : Blank disk)

theorem blank_no_tables (known : ∀ name ∈ listing, name ∈ blankFiles) : findSstables listing = .ok [] := by
  induction listing with
  | nil => rfl
  | cons name rest ih =>
      have later := ih (fun other member => known other (by simp [member]))
      have here := known name (by simp)
      simp only [blankFiles, List.mem_cons, List.not_mem_nil, or_false] at here
      rw [findSstables, later]
      rcases here with rfl | rfl | rfl <;> rfl

include blank in
theorem blank_logs (known : ∀ name ∈ listing, name ∈ blankFiles) (distinct : listing.Nodup) :
    findVlogs disk listing = .ok (if vlogName 0 ∈ listing then [ValueLog.opened (vlogName 0) 0 []] else []) := by
  have data : (fileData disk (vlogName 0)).getD [] = [] := by
    cases present : disk (vlogName 0) with
    | none => simp [fileData, present]
    | some file => simp [fileData, present, blank.vlog file present]
  induction listing with
  | nil => rfl
  | cons name rest ih =>
      obtain ⟨new, others⟩ := List.nodup_cons.mp distinct
      have later := ih (fun other member => known other (by simp [member])) others
      have here := known name (by simp)
      simp only [blankFiles, List.mem_cons, List.not_mem_nil, or_false] at here
      rw [findVlogs]
      rcases here with rfl | rfl | rfl
      · have none : parseVlogGen walName = .ok none := rfl
        have different : vlogName 0 ≠ walName := by decide
        simp [none, later, different, bind, Except.bind]
      · rw [if_neg new] at later
        simp [parse_vlog_gen_vlog_name, later, data, openLog, offMax, bind, Except.bind, pure, Except.pure]
      · have none : parseVlogGen manifestTmpName = .ok none := rfl
        have different : vlogName 0 ≠ manifestTmpName := by decide
        simp [none, later, different, bind, Except.bind]

include blank in
theorem blank_replays : replayedWrites disk = [] ∧ (disk flushingWalName).isSome = false := by
  have noFlushing : disk flushingWalName = none := by
    cases present : disk flushingWalName with
    | none => rfl
    | some file => exact absurd (blank.few flushingWalName (by rw [present]; rfl)) (by decide)
  refine ⟨?_, by rw [noFlushing]; rfl⟩
  cases present : disk walName with
  | none => simp [replayedWrites, replayFile, fileData, noFlushing, present]
  | some file =>
      simp [replayedWrites, replayFile, fileData, noFlushing, present, blank.wal file present, replay, replayLoop]

-- The steps of the first opening up to its MANIFEST.
def blankOps (listing : List Bytes) : List DiskOp :=
  [.create walName] ++
    ((listing.filter isTmp).map FsOp.unlink ++ if vlogName 0 ∈ listing then [] else [.create (vlogName 0)])

include blank in
theorem open_blank (lists : Lists disk listing) :
    openDB cfg listing disk = .ok (DB.fresh, blankOps listing ++ writeManifestLocked DB.fresh) := by
  have known : ∀ name ∈ listing, name ∈ blankFiles := fun name member => blank.few name ((lists.2 name).mp member)
  have tables := blank_no_tables listing known
  have logs := blank_logs listing disk blank known lists.1
  obtain ⟨replays, flushing⟩ := blank_replays disk blank
  rw [replayedWrites] at replays
  have manifest : manifestRead (fileData disk manifestName) = .ok none := by
    cases present : disk manifestName with
    | none => simp [fileData, present, manifestRead]
    | some file => exact absurd (blank.few manifestName (by rw [present]; rfl)) (by decide)
  have gen : max (0 : UInt32) 0 = 0 := rfl
  by_cases there : vlogName 0 ∈ listing
  · simp [openDB, manifest, loadDirectory, loadSstables, tables, loadVlogs, logs, there, replays,
      flushing, finishRecovery,
      openTables, bind, Except.bind, pure, Except.pure, blankOps, vlogIndex, maxGen, gen, ValueLog.opened, DB.fresh,
      memOf]
  · have absent : (fileData disk (vlogName 0)).getD [] = [] := by
      cases present : disk (vlogName 0) with
      | none => simp [fileData, present]
      | some file => simp [fileData, present, blank.vlog file present]
    simp [openDB, manifest, loadDirectory, loadSstables, tables, loadVlogs, logs, there, replays,
      flushing, finishRecovery,
      openTables, absent, openLog, offMax, bind, Except.bind, pure, Except.pure, blankOps, vlogIndex, maxGen, gen,
      ValueLog.opened, DB.fresh, memOf]

include blank in
theorem blank_ops_throughout (lists : Lists disk listing) :
    Throughout Blank disk (blankOps listing) ∧ (applyAll disk (blankOps listing) (vlogName 0)).isSome = true ∧
      (applyAll disk (blankOps listing) walName).isSome = true := by
  have known : ∀ name ∈ listing, name ∈ blankFiles := fun name member => blank.few name ((lists.2 name).mp member)
  have tmp : ∀ op ∈ (listing.filter isTmp).map FsOp.unlink, op = .unlink manifestTmpName := by
    intro op member
    obtain ⟨name, inside, rfl⟩ := List.mem_map.mp member
    obtain ⟨listed, isTemp⟩ := List.mem_filter.mp inside
    have here := known name listed
    simp only [blankFiles, List.mem_cons, List.not_mem_nil, or_false] at here
    rcases here with rfl | rfl | rfl
    · cases isTemp
    · cases isTemp
    · rfl
  -- An entry that is not unlinked stays where it is.
  have stays : ∀ name, name ≠ manifestTmpName → ∀ d : Disk Bytes, (d name).isSome = true →
      (applyAll d ((listing.filter isTmp).map FsOp.unlink) name).isSome = true := by
    intro name different d there
    rw [apply_all_frame d _ name (fun op member touched => ?_)]
    · exact there
    · rw [tmp op member] at touched
      exact different (List.mem_singleton.mp touched)
  have created : ∀ (d : Disk Bytes) name, ((FsOp.create name).apply d name).isSome = true := by
    intro d name
    simp [FsOp.apply, set_same]
  have kept : ∀ (d : Disk Bytes) name other, (d other).isSome = true →
    ((FsOp.create name).apply d other).isSome = true := by
    intro d name other there
    by_cases same : other = name
    · rw [same]
      exact created d name
    · rwa [FsOp.apply, set_other _ _ _ _ same]
  have throughout : Throughout Blank disk (blankOps listing) := by
    refine throughout_kept Blank disk _ blank (fun op member d holds => ?_)
    rcases List.mem_append.mp member with first | rest
    · rw [List.mem_singleton.mp first]
      exact blank_create d walName holds (.inl rfl)
    rcases List.mem_append.mp rest with second | third
    · exact blank_tmp d op holds (.inr (.inr (.inr (tmp op second))))
    · split at third
      · cases third
      · rw [List.mem_singleton.mp third]
        exact blank_create d (vlogName 0) holds (.inr rfl)
  refine ⟨throughout, ?_, ?_⟩
  · rw [blankOps, apply_all_append, apply_all_append]
    by_cases there : vlogName 0 ∈ listing
    · rw [if_pos there]
      exact stays (vlogName 0) (by decide) _ (kept disk walName _ ((lists.2 _).mp there))
    · rw [if_neg there]
      exact created _ (vlogName 0)
  · rw [blankOps, apply_all_append, apply_all_append]
    have here := stays walName (by decide) _ (created disk walName)
    split
    · exact here
    · exact kept _ (vlogName 0) walName here

include blank in
theorem blank_commits (there : (disk (vlogName 0)).isSome = true) (valid : disk.Valid) :
    Throughout (fun d => Blank d ∨ CommittedDb serial DB.fresh (ValueLog.opened (vlogName 0) 0 []) d) disk
        (writeManifestLocked DB.fresh) ∧
      Backed serial DB.fresh (ValueLog.opened (vlogName 0) 0 []) (applyAll disk (writeManifestLocked DB.fresh)) := by
  obtain ⟨file, present⟩ := Option.isSome_iff_exists.mp there
  have empty := blank.vlog file present
  have inside := valid _ file present
  rw [empty] at inside
  have after : applyAll disk (writeManifestLocked DB.fresh) (vlogName 0) = some file := by
    refine (apply_all_frame disk _ _ (fun op member touched => ?_)).trans present
    rcases manifest_files _ op member _ touched with same | same
    · exact absurd same (by decide)
    · exact absurd same (by decide)
  have committed : CommittedDb serial DB.fresh (ValueLog.opened (vlogName 0) 0 [])
    (applyAll disk (writeManifestLocked DB.fresh)) := by
    refine ⟨0, [], Nat.le_refl _, List.prefix_rfl, ?_, ?_⟩
    · have different : manifestName ≠ manifestTmpName := by decide
      have same : manifestAt 0 DB.fresh = manifestOf DB.fresh := rfl
      simp [same, writeManifestLocked, manifestOps, applyAll, FsOp.apply, Disk.set, durable, different]
    · refine ⟨⟨by decide, by decide, ?_, ?_⟩, .nil, ?_, List.nodup_nil, file, after, List.nil_prefix, ?_, ?_, ?_⟩
      · simp [manifestAt, manifestOf, DB.fresh]
      · simp [manifestAt, manifestOf, DB.fresh]
      · simp [manifestAt, manifestOf, DB.fresh]
      · rw [empty]
        exact inside
      · rw [empty]
        decide
      · simp [DB.fresh]
  have split : writeManifestLocked DB.fresh = [.truncate manifestTmpName, .append manifestTmpName
    (manifestBytes (manifestOf DB.fresh)), .fsync manifestTmpName] ++
    [.rename manifestTmpName manifestName, .fsyncDir] := rfl
  have before : Throughout Blank disk [.truncate manifestTmpName, .append manifestTmpName
      (manifestBytes (manifestOf DB.fresh)), .fsync manifestTmpName] := by
    refine throughout_kept Blank disk _ blank (fun op member d holds => blank_tmp d op holds ?_)
    simp only [List.mem_cons, List.not_mem_nil, or_false] at member
    rcases member with rfl | rfl | rfl
    · exact .inl rfl
    · exact .inr (.inl ⟨_, rfl⟩)
    · exact .inr (.inr (.inl rfl))
  refine ⟨?_, committed, ⟨file.synced, ?_⟩, by simp [DB.fresh], by simp [inFlight, DB.fresh]⟩
  · rw [split] at committed ⊢
    rw [apply_all_append] at committed
    refine (throughout_append _ _ _ _).mpr ⟨throughout_imp _ _ _ _ before (fun d holds => .inl holds), ?_⟩
    rw [throughout_cons, throughout_cons]
    exact ⟨.inl (throughout_last _ _ _ before), .inr committed, throughout_nil _ _ (.inr committed)⟩
  · change applyAll disk (writeManifestLocked DB.fresh) (vlogName 0) = some ⟨[], file.synced⟩
    rw [after, ← empty]

end Blank

end Tombstash
