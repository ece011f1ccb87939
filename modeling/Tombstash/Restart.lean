import Tombstash.Durability

set_option autoImplicit false

namespace Tombstash

-- What a record says when its pointer lies in the log.
def contents (log : ValueLog) (rec : Record) : Option Bytes :=
  if rec.op = Op.delete then none
  else if rec.separated then some (slice log.file rec.vptr.offset.toNat rec.vptr.len.toNat)
  else some rec.value

theorem contents_denoted (log : ValueLog) (rec : Record) (storable : Storable rec)
    (inside : Inside log.gen log.file.length rec) :
    Denotes log rec (contents log rec) := by
  rw [contents]
  by_cases deleted : rec.op = Op.delete
  · rw [if_pos deleted]
    exact deleted
  · rw [if_neg deleted]
    have put := storable.op.resolve_right deleted
    cases separated : rec.separated with
    | true => exact ⟨put, by rw [separated, if_pos rfl]; exact ⟨(inside separated).1, (inside separated).2, rfl⟩⟩
    | false => exact ⟨put, by simp [separated]⟩

def tableWrites (log : ValueLog) (records : List Record) :
    List Write := records.map (fun rec => (rec.key, contents log rec))

theorem answers_records (log : ValueLog) (history : List Write) (records : List Record)
    (ascending : Ascending Record.key records) (denoted : ∀ rec ∈ records, Denotes log rec (contents log rec)) :
    Stamped log (history ++ tableWrites log records) (batchLayer history.length (tableWrites log records)) records := by
  refine ⟨fun key none => ?_, fun key rec found => ?_⟩
  · have missing := (find_key_none Record.key key records).mp none
    cases layer : batchLayer history.length (tableWrites log records) key with
    | none => rfl
    | some n =>
        obtain ⟨_, ⟨value, present⟩, _⟩ := (batch_layer_spec history.length _ key n).mp layer
        obtain ⟨rec, member, same⟩ := List.mem_map.mp (List.mem_of_getElem? present)
        exact absurd (congrArg Prod.fst same) (missing rec member)
  · obtain ⟨member, named⟩ := find_key_some Record.key key records rec found
    rcases latest_spec (tableWrites log records) key with ⟨absent, _⟩ | ⟨n, value, newest, version, _⟩
    · exact absurd named ((latest_none _ key).mp absent (rec.key, contents log rec)
        (List.mem_map_of_mem (f := fun rec => (rec.key, contents log rec)) member))
    · rw [tableWrites, List.getElem?_map] at version
      obtain ⟨other, there, same⟩ := Option.map_eq_some_iff.mp version
      obtain ⟨otherKey, rfl⟩ := Prod.mk.inj same
      have unique := ascending_find Record.key records ascending other (List.mem_of_getElem? there)
      rw [otherKey] at unique
      have eq : other = rec := Option.some.inj (unique.symm.trans found)
      subst eq
      refine ⟨history.length + n, contents log other, ?_, ?_, denoted other member⟩
      · refine (batch_layer_spec history.length _ key _).mpr ⟨by omega, ?_⟩
        rw [Nat.add_sub_cancel_left]
        exact newest
      · rw [List.getElem?_append_right (by omega), Nat.add_sub_cancel_left, tableWrites, List.getElem?_map,
          there, Option.map_some, otherKey]

theorem tables_hold_some (log : ValueLog) (ssts : List SSTable) (formed : ∀ sst ∈ ssts, sst.WellFormed)
    (inside : ∀ sst ∈ ssts, ∀ rec ∈ sst.records, Inside log.gen log.file.length rec) :
    ∃ done, TablesHold log done ssts := by
  induction ssts with
  | nil => exact ⟨[], [], faithful_nil, .nil⟩
  | cons sst rest ih =>
      obtain ⟨mine, others⟩ := List.forall_mem_cons.mp inside
      obtain ⟨well, wells⟩ := List.forall_mem_cons.mp formed
      obtain ⟨done, layers, faithful, stamped⟩ := ih wells others
      refine ⟨done ++ tableWrites log sst.records, _, faithful_batch done (tableWrites log sst.records) layers faithful,
        .cons ?_ ?_⟩
      · exact answers_records log done sst.records well.ascending
          (fun rec member => contents_denoted log rec (well.storable rec member) (mine rec member))
      · exact stamped.imp (fun layer sst answers => answers_append log done _ layer _ answers)

-- Logs that are durable as a whole.
def WholeLogs (disk : Disk Bytes) :
    Prop := ∀ name ∈ walFiles, ∀ file, disk name = some file → file.synced = file.data.length

-- A store of which the tables hold base, with write-ahead logs that a crash
-- leaves whole.
structure Resumes (base : List Write) (disk : Disk Bytes) : Prop where
  store : ∃ m text ssts log, Committed True disk m text ssts ∧ log.gen = m.currentGen ∧ text <+: log.file ∧
    TablesHold log base ssts
  logs : WholeLogs disk

theorem crash_whole (disk image : Disk Bytes) (cut : CrashImage disk image) (name : Bytes)
    (whole : ∀ file, disk name = some file → file.synced = file.data.length) : image name = disk name := by
  cases present : disk name with
  | none => exact crash_none disk image cut name present
  | some file =>
      obtain ⟨data, synced⟩ := file
      have same : synced = data.length := whole _ present
      subst same
      exact crash_durable disk image cut name data present

theorem replayed_same (disk later : Disk Bytes) (same : ∀ name ∈ walFiles, later name = disk name) :
    replayedWrites later = replayedWrites disk := by
  rw [replayedWrites, replay_file_same disk later _ (same flushingWalName (by decide)),
    replay_file_same disk later _ (same walName (by decide)), ← replayedWrites]

theorem resumes_crash (base : List Write) (disk image : Disk Bytes) (resumes : Resumes base disk)
    (cut : CrashImage disk image) :
    Resumes base image ∧ replayedWrites image = replayedWrites disk := by
  obtain ⟨⟨m, text, ssts, log, committed, rest⟩, logs⟩ := resumes
  have same : ∀ name ∈ walFiles, image name = disk name := fun name inside =>
    crash_whole disk image cut name (logs name inside)
  refine ⟨⟨⟨m, text, ssts, log, committed_crash disk image m text ssts cut committed, rest⟩, ?_⟩,
    replayed_same disk image same⟩
  exact fun name _ file present => crash_valid disk image cut name file present

theorem resumes_get (base : List Write) (disk : Disk Bytes) (resumes : Resumes base disk) (cfg : Config) (next : Sys)
    (opens : Opens cfg disk next) (key : Bytes) :
    next.db.get key = .ok (valueOf (base ++ replayedWrites disk) key) := by
  obtain ⟨⟨m, text, ssts, log, committed, gen, known, holds⟩, _⟩ := resumes
  obtain ⟨file, present, begins, _, _, ranges⟩ := committed.prepared.vlog
  have again : TablesHold (ValueLog.opened (vlogName m.currentGen) m.currentGen file.data) base ssts := by
    refine tables_hold_within log _ text _ ssts gen.symm known (begins.trans (List.take_prefix _ _)) ?_ holds
    rw [gen]
    exact ranges trivial
  obtain ⟨listing, _, opened⟩ := opens.opened
  exact opened_get cfg listing disk m text ssts committed file present next.db next.todo opened base again key

theorem committed_resumes (db : DB) (i : Nat) (log : ValueLog) (base : List Write) (disk : Disk Bytes)
    (sound : Sound True db i log) (holds : TablesHold log base (db.sstables.map Table.sst))
    (committed : CommittedDb True db log disk) (logs : WholeLogs disk) :
    Resumes base disk := by
  obtain ⟨seq, text, _, known, there⟩ := committed
  exact ⟨⟨manifestAt seq db, text, _, log, there, sound.gen, known, holds⟩, logs⟩

theorem resumes_wal_ops (base : List Write) (disk : Disk Bytes) (ops : List DiskOp) (resumes : Resumes base disk)
    (onWal : ∀ op ∈ ops, ∀ name ∈ op.touches, name ∈ walFiles) (logs : WholeLogs (applyAll disk ops)) :
    Resumes base (applyAll disk ops) := by
  obtain ⟨⟨m, text, ssts, log, committed, rest⟩, _⟩ := resumes
  have kinds : ∀ other ∈ walFiles, other[0]? = some 0x77 ∧ other ≠ manifestName := by decide
  have apart : Apart (manifestName :: neededFiles m) ops := by
    intro op member name touched inside
    obtain ⟨first, notManifest⟩ := kinds name (onWal op member name touched)
    rcases List.mem_cons.mp inside with same | needed
    · exact notManifest same
    · exact manifest_not_needed disk m text ssts committed.prepared name (.inr first) needed
  exact ⟨⟨m, text, ssts, log, throughout_last _ _ _ (committed_apart disk m text ssts ops committed apart), rest⟩, logs⟩

theorem apart_logs (disk : Disk Bytes) (ops : List DiskOp) (apart : Apart walFiles ops) (logs : WholeLogs disk) :
    Throughout (fun d => replayedWrites d = replayedWrites disk ∧ WholeLogs d) disk ops := by
  intro done part
  have same : ∀ name ∈ walFiles, applyAll disk done name = disk name := fun name inside =>
    apart_frame walFiles disk done (fun op member => apart op (part.subset member)) name inside
  refine ⟨replayed_same disk _ same, fun name inside file present => logs name inside file ?_⟩
  rw [← same name inside]
  exact present

theorem create_logs (disk : Disk Bytes) (logs : WholeLogs disk) :
    replayedWrites ((FsOp.create walName).apply disk) = replayedWrites disk ∧
    WholeLogs ((FsOp.create walName).apply disk) := by
  have frame : (FsOp.create walName).apply disk flushingWalName = disk flushingWalName :=
    apply_frame disk _ _ (by decide)
  refine ⟨?_, fun name inside file there => ?_⟩
  · rw [replayedWrites, replay_created, replay_file_same disk _ _ frame, ← replayedWrites]
  · cases present : disk walName with
    | some old =>
        rw [create_present disk walName old present] at there
        exact logs name inside file there
    | none =>
        simp only [walFiles, List.mem_cons, List.not_mem_nil, or_false] at inside
        rcases inside with rfl | rfl
        · simp only [FsOp.apply, set_same, present] at there
          cases there
          rfl
        · exact logs _ (by decide) file (frame ▸ there)

theorem truncate_resumes (base : List Write) (disk : Disk Bytes) (resumes : Resumes base disk) :
    Resumes base ((FsOp.truncate walName).apply disk) ∧
      replayedWrites ((FsOp.truncate walName).apply disk) = replayFile disk flushingWalName := by
  have frame : (FsOp.truncate walName).apply disk flushingWalName = disk flushingWalName :=
    apply_frame disk _ _ (by decide)
  have emptied : (FsOp.truncate walName).apply disk walName = some ⟨[], 0⟩ := set_same _ _ _
  refine ⟨resumes_wal_ops base disk [.truncate walName] resumes (by decide) (fun name inside file there => ?_), ?_⟩
  · simp only [walFiles, List.mem_cons, List.not_mem_nil, or_false] at inside
    rcases inside with rfl | rfl
    · cases emptied.symm.trans there
      rfl
    · exact resumes.logs _ (by decide) file (frame.symm.trans there)
  · rw [replayedWrites, replay_file_empty _ walName 0 emptied, List.append_nil, replay_file_same disk _ _ frame]

theorem unlink_resumes (base : List Write) (disk : Disk Bytes) (resumes : Resumes base disk) :
    Resumes base ((FsOp.unlink flushingWalName).apply disk) ∧
      replayedWrites ((FsOp.unlink flushingWalName).apply disk) = replayFile disk walName := by
  have frame : (FsOp.unlink flushingWalName).apply disk walName = disk walName := apply_frame disk _ _ (by decide)
  have gone : (FsOp.unlink flushingWalName).apply disk flushingWalName = none := set_same _ _ _
  refine ⟨resumes_wal_ops base disk [.unlink flushingWalName] resumes (by decide) (fun name inside file there => ?_),
    ?_⟩
  · simp only [walFiles, List.mem_cons, List.not_mem_nil, or_false] at inside
    rcases inside with rfl | rfl
    · exact resumes.logs _ (by decide) file (frame.symm.trans there)
    · cases gone.symm.trans there
  · rw [replayedWrites, replay_file_none _ _ gone, List.nil_append, replay_file_same disk _ _ frame]

-- Where the steps of a constructor that has replayed both logs may be cut: the
-- tables hold what they held, or what was replayed too and then some of the logs
-- may be gone, the newer one first.
inductive Cut (base sealed active : List Write) (disk : Disk Bytes) : Prop
  | before (resumes : Resumes base disk) (replays : replayedWrites disk = sealed ++ active)
  | committed (resumes : Resumes (base ++ (sealed ++ active)) disk) (replays : replayedWrites disk = sealed ++ active)
  | truncated (resumes : Resumes (base ++ (sealed ++ active)) disk) (replays : replayedWrites disk = sealed)
  | finished (resumes : Resumes (base ++ (sealed ++ active)) disk) (replays : replayedWrites disk = [])

-- The writes of two logs end alike on the keys that both write.
def Agree (older newer : List Write) : Prop :=
  ∀ key first second, latest older key = some first → latest newer key = some second → first = second

theorem replay_twice (base writes : List Write) (key : Bytes) :
    valueOf (base ++ writes ++ writes) key = valueOf (base ++ writes) key := by
  simp only [valueOf, latest_append]
  cases latest writes key <;> rfl

theorem replay_older (base older newer : List Write) (key : Bytes) (first second : Option Bytes)
    (inOlder : latest older key = some first) (inNewer : latest newer key = some second) :
    valueOf (base ++ (older ++ newer) ++ older) key = first ∧ valueOf (base ++ (older ++ newer)) key = second := by
  simp [valueOf, latest_append, inOlder, inNewer]

theorem replay_agreed (base older newer : List Write) (agree : Agree older newer) (key : Bytes) :
    valueOf (base ++ (older ++ newer) ++ older) key = valueOf (base ++ (older ++ newer)) key := by
  cases inOlder : latest older key with
  | none => simp [valueOf, latest_append, inOlder]
  | some first =>
      cases inNewer : latest newer key with
      | none => simp [valueOf, latest_append, inOlder, inNewer]
      | some second =>
          obtain ⟨one, two⟩ := replay_older base older newer key first second inOlder inNewer
          rw [one, two]
          exact agree key first second inOlder inNewer

theorem cut_get (base sealed active : List Write) (disk : Disk Bytes) (cut : Cut base sealed active disk)
    (agree : Agree sealed active) (cfg : Config) (next : Sys) (opens : Opens cfg disk next) (key : Bytes) :
    next.db.get key = .ok (valueOf (base ++ (sealed ++ active)) key) := by
  cases cut with
  | before resumes replays => rw [resumes_get _ disk resumes cfg next opens key, replays]
  | committed resumes replays => rw [resumes_get _ disk resumes cfg next opens key, replays, replay_twice]
  | truncated resumes replays =>
      rw [resumes_get _ disk resumes cfg next opens key, replays, replay_agreed base sealed active agree]
  | finished resumes replays => rw [resumes_get _ disk resumes cfg next opens key, replays, List.append_nil]

theorem cut_crash (base sealed active : List Write) (disk image : Disk Bytes) (cut : Cut base sealed active disk)
    (crash : CrashImage disk image) : Cut base sealed active image := by
  cases cut with
  | before resumes replays =>
      obtain ⟨again, same⟩ := resumes_crash _ disk image resumes crash
      exact .before again (same.trans replays)
  | committed resumes replays =>
      obtain ⟨again, same⟩ := resumes_crash _ disk image resumes crash
      exact .committed again (same.trans replays)
  | truncated resumes replays =>
      obtain ⟨again, same⟩ := resumes_crash _ disk image resumes crash
      exact .truncated again (same.trans replays)
  | finished resumes replays =>
      obtain ⟨again, same⟩ := resumes_crash _ disk image resumes crash
      exact .finished again (same.trans replays)

section Constructor

variable (cfg : Config) (disk : Disk Bytes) (s : Sys) (m : ManifestData) (text : Bytes) (ssts : List SSTable)
variable (committed : Committed True disk m text ssts) (file : File)
    (present : disk (vlogName m.currentGen) = some file)
variable (base : List Write)
    (holds : TablesHold (ValueLog.opened (vlogName m.currentGen) m.currentGen file.data) base ssts)
variable (valid : disk.Valid) (logs : WholeLogs disk)

include committed present holds logs in
theorem start_cuts (listing : List Bytes) (orphans : List DiskOp)
    (swept : cleanupOrphans (m.tables.map ManifestEntry.name) m.currentGen listing = .ok orphans) :
    Throughout (fun d => Resumes base d ∧ replayedWrites d = replayedWrites disk) disk (startOps m orphans) := by
  obtain ⟨during, _, _⟩ := start_ops_committed listing disk m text ssts committed file present orphans swept
  obtain ⟨_, wal⟩ := orphans_apart disk m text ssts committed.prepared listing orphans swept
  obtain ⟨file', there, begins, _⟩ := committed.prepared.vlog
  rw [present] at there
  cases there
  have quiet : Throughout (fun d => replayedWrites d = replayedWrites disk ∧ WholeLogs d) disk
    (startOps m orphans) := by
    obtain ⟨same, whole⟩ := create_logs disk logs
    have apart : Apart walFiles (.create (vlogName m.currentGen) :: orphans) := by
      intro op member name touched inside
      rcases List.mem_cons.mp member with rfl | orphan
      · rw [List.mem_singleton.mp touched] at inside
        have kinds : ∀ other ∈ walFiles, other[0]? ≠ some 0x76 := by decide
        exact kinds _ inside (vlog_first _)
      · exact wal op orphan name touched inside
    refine (throughout_cons _ _ _ _).mpr ⟨⟨rfl, logs⟩, ?_⟩
    exact throughout_imp _ _ _ _ (apart_logs _ _ apart whole) (fun d both => ⟨both.1.trans same, both.2⟩)
  intro done part
  obtain ⟨replays, whole⟩ := quiet done part
  exact ⟨⟨⟨m, text, ssts, _, during done part, rfl, begins.trans (List.take_prefix _ _), holds⟩, whole⟩, replays⟩

include committed present holds valid logs in
theorem flush_cuts (listing : List Bytes) (orphans front : List DiskOp) (db : DB) (limits : Listable db)
    (swept : cleanupOrphans (m.tables.map ManifestEntry.name) m.currentGen listing = .ok orphans)
    (move : Move cfg [] (loadedDb m ssts file.data (replayedWrites disk)) .flushed db front []) :
    ∃ work, front = work ++ [.truncate walName] ∧ Apart walFiles work ∧
      Throughout (fun d => (Resumes base d ∨ Resumes (base ++ replayedWrites disk) d) ∧
        replayedWrites d = replayedWrites disk)
        (applyAll disk (startOps m orphans)) work ∧
      Resumes (base ++ replayedWrites disk) (applyAll (applyAll disk (startOps m orphans)) work) := by
  obtain ⟨first, replayed⟩ :=
    throughout_last _ _ _ (start_cuts disk m text ssts committed file present base holds logs listing orphans swept)
  have loadedSound := loaded_sound disk m text ssts committed file present (replayedWrites disk)
  obtain ⟨stamp, hist⟩ :=
    loaded_hist m ssts file.data (replayedWrites disk) base committed.prepared.tables.length_eq holds
  obtain ⟨j, later, sound, _, work, rfl, apart, during, after⟩ :=
    opened_advances cfg listing disk m text ssts committed file present db
    orphans front .flushed (replayedWrites disk) swept (.inl rfl) move valid limits
  obtain ⟨_, _, _, grow⟩ := move_sound cfg _ 0 _ _ db _ [] loadedSound move (fun _ picks => picks.elim)
  obtain ⟨⟨_, histNext⟩, _⟩ :=
    move_hist _ db _ later _ _ _ stamp 0 cfg _ _ [] j loadedSound hist (by simp [inFlight, loadedDb]) move
    sound grow
  have old := hist_tables _ _ _ _ _ stamp hist
  have new := hist_tables db later _ _ _ _ histNext
  have quiet := apart_logs _ work apart first.logs
  refine ⟨work, rfl, apart, fun done part => ?_, ?_⟩
  · obtain ⟨same, whole⟩ := quiet done part
    refine ⟨?_, same.trans replayed⟩
    exact (during done part).imp (fun there => committed_resumes _ 0 _ base _ loadedSound old there whole)
      (fun there => committed_resumes db j later _ _ sound new there whole)
  · exact committed_resumes db j later _ _ sound new after (throughout_last _ _ _ quiet).2

include committed present holds valid logs in
theorem constructor_cuts (opens : Opens cfg disk s) :
    Throughout (Cut base (replayFile disk flushingWalName) (replayFile disk walName)) disk s.todo ∧
      (replayFile disk flushingWalName ≠ [] → ∃ front, s.todo = front ++ [.unlink flushingWalName, .fsyncDir] ∧
        Resumes (base ++ replayedWrites disk) (applyAll disk front) ∧
        replayedWrites (applyAll disk front) = replayFile disk flushingWalName) := by
  obtain ⟨listing, _, opened⟩ := opens.opened
  obtain ⟨orphans, kind, front, swept, plain, move, shape, leftover, clean⟩ :=
    opened_move cfg listing disk m text ssts committed
    file present s.db s.todo opened
  have start := start_cuts disk m text ssts committed file present base holds logs listing orphans swept
  have early : Throughout (Cut base (replayFile disk flushingWalName) (replayFile disk walName)) disk
    (startOps m orphans) :=
    throughout_imp _ _ _ _ start (fun d both => .before both.1 both.2)
  obtain ⟨first, replayed⟩ := throughout_last _ _ _ start
  rw [shape]
  rcases plain with rfl | rfl
  · have left : (disk flushingWalName).isSome = true := by
      cases there : (disk flushingWalName).isSome with
      | true => rfl
      | false => cases (clean there).1
    obtain ⟨_, _, files⟩ := start_ops_committed listing disk m text ssts committed file present orphans swept
    obtain ⟨work, rfl, apart, during, after⟩ :=
      flush_cuts cfg disk m text ssts committed file present base holds valid logs listing orphans
      front s.db (within_limits_listable s.db opens.limits) swept move
    have same : applyAll (applyAll disk (startOps m orphans)) work flushingWalName = disk flushingWalName :=
      (apart_frame walFiles _ work apart _ (by decide)).trans
        ((files flushingWalName (by decide)).trans (apply_frame disk _ _ (by decide)))
    obtain ⟨truncated, older⟩ := truncate_resumes _ _ after
    obtain ⟨finished, nothing⟩ := unlink_resumes _ _ truncated
    have sealed := replay_file_same disk _ _ same
    have emptied :=
      replay_file_empty ((FsOp.truncate walName).apply (applyAll (applyAll disk (startOps m orphans)) work)) walName 0
      (set_same _ _ _)
    rw [sealed] at older
    rw [emptied] at nothing
    rw [left, dropFlushing, if_pos rfl]
    refine ⟨?_, fun _ => ⟨startOps m orphans ++ (work ++ [.truncate walName]), ?_, ?_⟩⟩
    · refine (throughout_append _ _ _ _).mpr ⟨early, ?_⟩
      rw [List.append_assoc]
      refine (throughout_append _ _ _ _).mpr ⟨?_, ?_⟩
      · intro done part
        obtain ⟨resumes, both⟩ := during done part
        exact resumes.elim (fun old => .before old both) (fun new => .committed new both)
      · rw [List.singleton_append, throughout_cons, throughout_cons, throughout_cons]
        exact ⟨.committed after (throughout_last _ _ _ during).2, .truncated truncated older,
          .finished finished nothing, throughout_nil _ _ (.finished finished nothing)⟩
    · simp
    · rw [apply_all_append, apply_all_append]
      exact ⟨truncated, older⟩
  · obtain ⟨_, idle⟩ := flush_keeps_slot cfg _ s.db .idle front [] (.inr rfl) move
    obtain ⟨memtable, rfl⟩ := idle rfl
    rw [List.nil_append]
    cases left : (disk flushingWalName).isSome with
    | false =>
        rw [dropFlushing, if_neg (by simp), List.append_nil]
        refine ⟨early, fun filled => absurd (replay_file_none disk _ ?_) filled⟩
        simpa using left
    | true =>
        have none : replayedWrites disk = [] := by
          have empty := leftover left
          rw [memtable] at empty
          exact (mem_of_is_empty _).mp empty
        obtain ⟨noOlder, noNewer⟩ := List.append_eq_nil_iff.mp none
        refine ⟨(throughout_append _ _ _ _).mpr ⟨early, ?_⟩, fun filled => absurd noOlder filled⟩
        obtain ⟨unlinked, newer⟩ := unlink_resumes _ _ first
        have atStart := replayed.trans none
        rw [replayedWrites, List.append_eq_nil_iff] at atStart
        rw [atStart.2] at newer
        rw [dropFlushing, if_pos rfl, throughout_cons, throughout_cons]
        exact ⟨.before first replayed, .before unlinked (newer.trans none.symm),
          throughout_nil _ _ (.before unlinked (newer.trans none.symm))⟩

include committed present in
theorem constructor_names (opens : Opens cfg disk s) :
    Throughout (fun d => ∀ name, (d name).isSome = true → Classified name) disk s.todo := by
  obtain ⟨listing, lists, opened⟩ := opens.opened
  obtain ⟨orphans, kind, front, swept, plain, move, shape, _⟩ :=
    opened_move cfg listing disk m text ssts committed file present s.db
    s.todo opened
  have listed := cleanup_classified _ _ listing orphans swept
  have sound := loaded_sound disk m text ssts committed file present (replayedWrites disk)
  have locked : kind ≠ .worked := by rcases plain with rfl | rfl <;> nofun
  refine throughout_kept _ disk s.todo (fun name there => listed name ((lists.2 name).mpr there))
    (fun op member d names => ?_)
  refine apply_names d op names (fun name touched => ?_)
  rw [shape, List.mem_append, List.mem_append] at member
  rcases member with start | inFront | drop
  · rcases List.mem_cons.mp start with rfl | rest
    · exact store_name_classified name (.inl (by rw [List.mem_singleton.mp touched]; decide))
    rcases List.mem_cons.mp rest with rfl | orphan
    · exact store_name_classified name (.inr (.inr ⟨_, List.mem_singleton.mp touched⟩))
    · obtain ⟨gone, inListing, rfl, _⟩ := (cleanup_spec _ _ listing orphans swept op).mp orphan
      rw [List.mem_singleton.mp touched]
      exact listed gone inListing
  · exact store_name_classified name (touch_store_name _ s.db committed.prepared.fits.nextSeq name
      (locked_touches cfg _ s.db 0 _ kind front [] sound move locked op inFront name touched))
  · exact store_name_classified name (.inl (List.mem_append_left _ (drop_flushing_files _ op drop name touched)))

end Constructor

-- What is left of a directory when the process is killed or the machine crashes.
def Leaves (disk image : Disk Bytes) : Prop := image = disk ∨ CrashImage disk image

-- However the constructor is interrupted, it returns when it is run again, as
-- long as a flush of its own goes through, and gives the same map.
def Restartable (cfg : Config) (s : Sys) : Prop :=
  ∀ done, done <+: s.todo → ∀ image, Leaves (applyAll s.disk done) image →
    (∀ listing, Lists image listing → Reopens cfg listing image) ∧
    ∀ next, Opens cfg image next → ∀ key, next.db.get key = s.db.get key

theorem cut_resumes (base sealed active : List Write) (disk : Disk Bytes) (cut : Cut base sealed active disk) :
    ∃ held, Resumes held disk := by
  cases cut with
  | before resumes _ => exact ⟨_, resumes⟩
  | committed resumes _ | truncated resumes _ | finished resumes _ => exact ⟨_, resumes⟩

theorem resumes_reopens (cfg : Config) (base : List Write) (disk : Disk Bytes) (resumes : Resumes base disk)
    (names : ∀ name, (disk name).isSome = true → Classified name) (listing : List Bytes) (lists : Lists disk listing) :
    Reopens cfg listing disk := by
  obtain ⟨⟨m, text, ssts, _, committed, _⟩, _⟩ := resumes
  obtain ⟨file, present, _⟩ := committed.prepared.vlog
  exact opened_reopens cfg listing disk m text ssts committed file present names lists

theorem committed_base (disk : Disk Bytes) (m : ManifestData) (text : Bytes) (ssts : List SSTable) (file : File)
    (committed : Committed True disk m text ssts) (present : disk (vlogName m.currentGen) = some file) :
    ∃ base, TablesHold (ValueLog.opened (vlogName m.currentGen) m.currentGen file.data) base ssts := by
  obtain ⟨file', there, begins, _, _, ranges⟩ := committed.prepared.vlog
  rw [present] at there
  cases there
  refine tables_hold_some _ ssts (fun sst member => ?_) (fun sst member rec inside => ?_)
  · obtain ⟨_, _, _, _, _, formed⟩ := forall_two_right _ _ _ committed.prepared.tables sst member
    exact formed
  · exact inside_mono _ _ _ rec (begins.trans (List.take_prefix _ _)).length_le (ranges trivial sst member rec inside)

-- A killed constructor can be run again exactly when the two logs end alike on
-- the keys they share: between the truncation of wal.log and the removal of
-- wal-flushing.log the older log alone is replayed on top of both (it shows as
-- soon as that second run returns).
theorem recovery_restartable (cfg : Config) (disk : Disk Bytes) (s : Sys) (m : ManifestData) (text : Bytes)
    (ssts : List SSTable) (committed : Committed True disk m text ssts) (valid : disk.Valid) (logs : WholeLogs disk)
    (opens : Opens cfg disk s) :
    (Agree (replayFile disk flushingWalName) (replayFile disk walName) → Restartable cfg s) ∧
      ((∃ next, Opens cfg (applyAll disk (s.todo.take (s.todo.length - 2))) next) → Restartable cfg s →
        Agree (replayFile disk flushingWalName) (replayFile disk walName)) := by
  obtain ⟨file, present, _⟩ := committed.prepared.vlog
  obtain ⟨base, holds⟩ := committed_base disk m text ssts file committed present
  obtain ⟨cuts, stale⟩ := constructor_cuts cfg disk s m text ssts committed file present base holds valid logs opens
  have names := constructor_names cfg disk s m text ssts committed file present opens
  have first : ∀ key, s.db.get key = .ok (valueOf (base ++ replayedWrites disk) key) := by
    obtain ⟨listing, _, opened⟩ := opens.opened
    exact opened_get cfg listing disk m text ssts committed file present s.db s.todo opened base holds
  rw [Restartable, opens.disk]
  constructor
  · intro agree done part image leaves
    have cut : Cut base (replayFile disk flushingWalName) (replayFile disk walName) image := by
      rcases leaves with rfl | crash
      · exact cuts done part
      · exact cut_crash _ _ _ _ image (cuts done part) crash
    have known : ∀ name, (image name).isSome = true → Classified name := by
      rcases leaves with rfl | crash
      · exact names done part
      · exact fun name there => names done part name (crash_present _ image crash name there)
    obtain ⟨held, resumes⟩ := cut_resumes _ _ _ _ cut
    refine ⟨resumes_reopens cfg held image resumes known, fun next again key => ?_⟩
    rw [cut_get _ _ _ image cut agree cfg next again key, first key, replayedWrites]
  · rintro ⟨next, again⟩ restarts key older newer inOlder inNewer
    have filled : replayFile disk flushingWalName ≠ [] := by
      intro none
      rw [none] at inOlder
      cases inOlder
    obtain ⟨front, shape, resumes, replays⟩ := stale filled
    have cut : s.todo.take (s.todo.length - 2) = front := by simp [shape]
    rw [cut] at again
    have same := (restarts front (by simp [shape]) _ (.inl rfl)).2 next again key
    obtain ⟨one, two⟩ := replay_older base _ _ key older newer inOlder inNewer
    rw [resumes_get _ _ resumes cfg next again key, replays, first key, replayedWrites, one, two] at same
    cases same
    rfl

-- A store that is killed between a seal and the publication of its flush, with
-- one more write acknowledged.
def killedEvents (second : Label) : List Event :=
  List.replicate 7 .io ++ whole (.put [1] [1, 1] true) 6 ++ whole second 2

def killedStore (second : Label) : Option Sys :=
  (Sys.fresh (smallStore 3 1000)).execAllIn (storeNames 2) (fun _ _ => true) (killedEvents second)

-- The constructor on its directory, and the constructor after it was killed in
-- turn before its last two steps.
def killedOpening (second : Label) : Option Sys :=
  (killedStore second).bind (fun left => Sys.opened (storeNames 2) (smallStore 3 1000) left.disk)

def killedTwice (second : Label) : Option Sys :=
  (killedOpening second).bind (fun s =>
    Sys.opened (storeNames 2) (smallStore 3 1000) (applyAll s.disk (s.todo.take (s.todo.length - 2))))

theorem killed_opens (second : Label) (runs : (killedTwice second).isSome = true) :
    ∃ left s next, (Sys.fresh (smallStore 3 1000)).Run (killedEvents second) left ∧ killedStore second = some left ∧
      killedOpening second = some s ∧ killedTwice second = some next ∧ Opens (smallStore 3 1000) left.disk s ∧
      Opens (smallStore 3 1000) (applyAll left.disk (s.todo.take (s.todo.length - 2))) next := by
  have distinct : (storeNames 2).Nodup := by decide +kernel
  obtain ⟨next, twice⟩ := Option.isSome_iff_exists.mp runs
  obtain ⟨s, once, again⟩ := Option.bind_eq_some_iff.mp twice
  obtain ⟨left, killed, opening⟩ := Option.bind_eq_some_iff.mp once
  obtain ⟨run, confined⟩ :=
    exec_all_in_run (storeNames 2) _ _ left _ distinct (fresh_confined _ _ (by decide +kernel)) killed
  obtain ⟨opens, after⟩ := opened_opens _ _ _ s distinct confined.present opening
  have only : touchOnly (storeNames 2) (s.todo.take (s.todo.length - 2)) = true := by
    rw [touchOnly, List.all_eq_true]
    exact fun op member => List.all_eq_true.mp after.todo op (List.mem_of_mem_take member)
  obtain ⟨opensAgain, _⟩ := opened_opens _ _ _ next distinct (apply_confined _ _ _ after.present only) again
  rw [opens.disk] at opensAgain
  exact ⟨left, s, next, run_with_run _ _ left _ run, killed, once, twice, opens, opensAgain⟩

-- Key 1 is written before and after the seal; the value from before comes back.
theorem killed_recovery_shows_older :
    ∃ left s next done, (Sys.fresh (smallStore 3 1000)).Run (killedEvents (.put [1] [2] true)) left ∧
      Opens (smallStore 3 1000) left.disk s ∧ done <+: s.todo ∧
      Opens (smallStore 3 1000) (applyAll left.disk done) next ∧
      s.db.get [1] = .ok (some [2]) ∧ next.db.get [1] = .ok (some [1, 1]) := by
  obtain ⟨left, s, next, run, _, once, twice, opens, again⟩ := killed_opens (.put [1] [2] true) (by decide +kernel)
  have first : (killedOpening (.put [1] [2] true)).map (fun s => s.db.get [1]) = some (.ok (some [2])) := by
    decide +kernel
  have second : (killedTwice (.put [1] [2] true)).map (fun s => s.db.get [1]) = some (.ok (some [1, 1])) := by
    decide +kernel
  rw [once, Option.map_some, Option.some.injEq] at first
  rw [twice, Option.map_some, Option.some.injEq] at second
  exact ⟨left, s, next, _, run, opens, List.take_prefix _ _, again, first, second⟩

-- With another key in the newer log the constructor can be killed anywhere.
theorem other_key_restartable : ∃ s ∈ killedOpening (.put [2] [2] true), Restartable (smallStore 3 1000) s := by
  obtain ⟨left, s, _, run, killed, once, _, opens, _⟩ := killed_opens (.put [2] [2] true) (by decide +kernel)
  have replayed : (killedStore (.put [2] [2] true)).map
    (fun left => (replayFile left.disk flushingWalName, replayFile left.disk walName)) =
      some ([([1], some [1, 1])], [([2], some [2])]) := by decide +kernel
  have durable : (killedStore (.put [2] [2] true)).map (fun left =>
      walFiles.all (fun name => (left.disk name).all (fun file => decide (file.synced = file.data.length)))) =
        some true := by
    decide +kernel
  rw [killed, Option.map_some, Option.some.injEq] at replayed durable
  obtain ⟨sealed, active⟩ := Prod.mk.inj replayed
  have inv := (background_run carried_nothing _ _ left _ (fresh_starts _) (by simp [killedEvents, whole]) run).1.inv
  rcases inv_openable _ _ left inv with blank | ⟨m, text, ssts, committed, _⟩
  · rw [replay_file_none left.disk _ (by simpa using (blank_replays left.disk blank).2)] at sealed
    cases sealed
  · have logs : WholeLogs left.disk := by
      intro name inside file present
      have here := List.all_eq_true.mp durable name inside
      rw [present] at here
      exact of_decide_eq_true here
    have agree : Agree (replayFile left.disk flushingWalName) (replayFile left.disk walName) := by
      rw [sealed, active]
      intro key first second inOlder inNewer
      rw [latest_singleton] at inOlder inNewer
      split at inOlder
      · next same =>
          rw [if_neg (by rw [← same]; decide)] at inNewer
          cases inNewer
      · cases inOlder
    exact ⟨s, once, (recovery_restartable _ left.disk s m text ssts committed inv.valid logs opens).1 agree⟩

end Tombstash
