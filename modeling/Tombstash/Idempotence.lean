import Mathlib.Data.List.Dedup
import Tombstash.Scan
import Tombstash.Sessions
import Tombstash.Settling

set_option autoImplicit false

namespace Tombstash

-- Every separated value that get finds lies in the current generation.
def Current (db : DB) : Prop :=
  ∀ key rec, firstMatch Record.key key (lookupRuns db) = some rec → rec.op = Op.put → rec.separated = true →
    rec.vptr.gen = db.currentGen

-- However an unattended session goes: the store can be opened again after it,
-- and no get of the store that is opened throws or answers otherwise.
def Idempotent (s : Sys) : Prop :=
  ∀ events last, (∀ event ∈ events, event.Background) → s.Run events last → Closed last → ∀ cfg,
    (∃ next, Opens cfg last.disk next) ∧
    ∀ next, Opens cfg last.disk next → ∀ key, (∃ value, next.db.get key = .ok value) ∧ next.db.get key = s.db.get key

theorem lists_apply_all (disk : Disk Bytes) (ops : List DiskOp) (listed : ∃ listing, Lists disk listing) :
    ∃ listing, Lists (applyAll disk ops) listing := by
  obtain ⟨listing, _, all⟩ := listed
  refine ⟨((listing ++ ops.flatMap FsOp.touches).dedup).filter (fun name => (applyAll disk ops name).isSome),
    (List.nodup_dedup _).filter _, fun name => ?_⟩
  rw [List.mem_filter, List.mem_dedup, List.mem_append]
  refine ⟨fun both => both.2, fun there => ⟨?_, there⟩⟩
  by_cases touched : ∃ op ∈ ops, name ∈ op.touches
  · exact .inr (List.mem_flatMap.mpr touched)
  · rw [apply_all_frame disk ops name (fun op member inside => touched ⟨op, member, inside⟩)] at there
    exact .inl ((all name).mpr there)

theorem lists_run (s last : Sys) (events : List Event) (background : ∀ event ∈ events, event.Background)
    (done : s.Run events last) (listed : ∃ listing, Lists s.disk listing) : ∃ listing, Lists last.disk listing := by
  induction events generalizing s with
  | nil =>
      cases done
      exact listed
  | cons event rest ih =>
      obtain ⟨next, stepped, remaining⟩ := done
      obtain ⟨here, later⟩ := List.forall_mem_cons.mp background
      refine ih next later remaining ?_
      cases stepped with
      | lock label effect free locked finds performed => exact listed
      | work label effect off performed => exact lists_apply_all s.disk effect.ops listed
      | io op more todo => exact lists_apply_all s.disk [op] listed
      | collect name marked => exact lists_apply_all s.disk [.unlink name] listed
      | reopen cfg next closed opens => exact here.elim
      | crash cfg image next cut opens => exact here.elim

section Closing

variable (first : DB) (wal : Option File) (last : Sys) (idling : Idling first wal last) (closed : Closed last)

include idling closed in
theorem closed_opens (cfg : Config) (listed : ∃ listing, Lists last.disk listing) :
    ∃ next, Opens cfg last.disk next := by
  obtain ⟨listing, lists⟩ := listed
  obtain ⟨i, log, sound, backed⟩ := idling.running.inv.state
  rw [closed.todo, apply_all_nil] at backed
  obtain ⟨seq, text, le, _, committed⟩ := backed.committed
  obtain ⟨synced, present⟩ := backed.vlog
  obtain ⟨orphans, swept⟩ :=
    cleanup_total ((manifestAt seq last.db).tables.map ManifestEntry.name) last.db.currentGen listing
    (fun name member => store_name_classified name (idling.running.inv.names name ((lists.2 name).mp member)))
  have flushing := idling.flushing
  rw [closed.todo, apply_all_nil] at flushing
  have opened := open_committed cfg listing last.disk _ text _ committed ⟨log.file, synced⟩ present
  rw [show (manifestAt seq last.db).currentGen = last.db.currentGen from rfl, swept, flushing] at opened
  refine ⟨⟨cfg, _, last.disk, _, [], []⟩, ⟨listing, lists, opened⟩, ⟨?_, ?_⟩, rfl, rfl, rfl, rfl⟩
  · exact lt_of_le_of_lt le idling.running.limits.1
  · have fields := (loaded_fields last.disk _ text _ committed).1
    have count := congrArg List.length fields
    rw [List.length_map, List.length_map] at count
    exact lt_of_eq_of_lt count idling.running.limits.2

include idling closed in
-- What it answers: the memtable out of the log, then the tables, with the
-- values of the current log.
theorem closed_get (cfg : Config) (next : Sys) (opens : Opens cfg last.disk next) (key : Bytes) :
    ∃ log, lookupLog last.db.logs last.db.vlogs last.db.currentGen = some log ∧
      next.db.get key = answer [ValueLog.opened (vlogName last.db.currentGen) last.db.currentGen log.file]
      [(last.db.currentGen, 0)]
        (firstMatch Record.key key
          ((memOf (replayFile last.disk walName)).snapshot :: tableRuns last.db.sstables)) := by
  obtain ⟨i, log, seq, synced, kind, orphans, work, reopened⟩ :=
    reopen_loads _ _ cfg last next idling.running.inv closed opens
  have flushing := idling.flushing
  rw [closed.todo, apply_all_nil] at flushing
  obtain ⟨_, loaded⟩ := reopened.loads.clean (by rw [flushing]; rfl)
  have fields :=
    (tables_from_fields 0 (manifestAt seq last.db).tables (last.db.sstables.map Table.sst)
    (by simp [manifestAt, manifestOf])).1
  have runs : lookupRuns
    (loadedDb (manifestAt seq last.db) (last.db.sstables.map Table.sst) log.file (replayedWrites last.disk)) =
      (memOf (replayFile last.disk walName)).snapshot :: tableRuns last.db.sstables := by
    have tables : tableRuns (tablesFrom 0 (manifestAt seq last.db).tables (last.db.sstables.map Table.sst)) =
      tableRuns last.db.sstables := by
      have records := congrArg (List.map SSTable.records) fields
      simpa only [tableRuns, List.map_map, Function.comp_def] using records
    rw [lookupRuns, memRuns, replayedWrites, replay_file_none last.disk _ flushing, List.nil_append]
    simp only [loadedDb, Bool.false_eq_true, if_false, List.append_nil, List.singleton_append]
    rw [tables]
  refine ⟨log, (sound_index last.db i log reopened.sound).2, ?_⟩
  rw [DB.get, loaded, lookup_reads _ _ key reopened.loads.sound.formed, runs]
  rfl

end Closing

theorem shown_answer (logs : List ValueLog) (vlogs : List (UInt32 × Nat)) (top : List Record) (old new : List Table)
    (key : Bytes) (same : shown new key = shown old key) :
    answer logs vlogs (firstMatch Record.key key (top :: tableRuns new)) =
      answer logs vlogs (firstMatch Record.key key (top :: tableRuns old)) := by
  rw [first_match_cons, first_match_cons]
  cases findKey Record.key key top with
  | some rec => rfl
  | none =>
      rw [Option.none_or, Option.none_or, ← answer_live,
        ← answer_live logs vlogs (firstMatch Record.key key (tableRuns old))]
      exact congrArg (answer logs vlogs) same

section Session

variable (cfg : Config) (disk : Disk Bytes) (s : Sys) (directory : StoreDirectory disk) (opens : Opens cfg disk s)
variable (readable : Readable s.db) (tiered : cfg.leveled = false)

include directory opens readable tiered in
-- After the session the store answers from the same records, with the current
-- log alone.
theorem session_answers :
    ∃ log, lookupLog s.db.logs s.db.vlogs s.db.currentGen = some log ∧ ∀ events last,
    (∀ event ∈ events, event.Background) →
      s.Run events last → Closed last → ∀ again, (∃ next, Opens again last.disk next) ∧
      ∀ next, Opens again last.disk next → ∀ key,
        next.db.get key = answer [ValueLog.opened (vlogName s.db.currentGen) s.db.currentGen log.file]
        [(s.db.currentGen, 0)]
          (firstMatch Record.key key (lookupRuns s.db)) := by
  obtain ⟨log, idling, current, memtable, flusher, merges, _⟩ :=
    opened_idles cfg disk s directory opens readable.formed tiered
  refine ⟨log, current, fun events last background done closed again => ?_⟩
  have listed : ∃ listing, Lists s.disk listing := by
    obtain ⟨listing, lists, _⟩ := opens.opened
    rw [opens.disk]
    exact ⟨listing, lists⟩
  obtain ⟨rest, run, all⟩ := drains s last events flusher merges opens.doomed opens.garbage background done closed.todo
  obtain ⟨final, same⟩ := run_alone _ _ s.drained last rest log idling all run
  have closedAlone : Closed (last.alone log) :=
    ⟨closed.todo, closed.flusher, closed.merges, closed.doomed, closed.garbage⟩
  refine ⟨closed_opens _ _ _ final closedAlone again (lists_run s last events background done listed),
    fun next opened key => ?_⟩
  obtain ⟨other, lookup, answers⟩ := closed_get _ _ _ final closedAlone again next opened key
  have sameLog : log = other := by simpa [Sys.alone, DB.alone, lookupLog, logIndex] using lookup
  have gen : (last.alone log).db.currentGen = s.db.currentGen := same.gen
  have slot : s.db.hasFlushing = false := idling.state.slot
  have atWal : (last.alone log).disk walName = s.drained.disk walName := by
    have wal := final.wal
    rwa [closedAlone.todo, apply_all_nil] at wal
  rw [answers, ← sameLog, gen, replay_file_same _ _ _ atWal, ← memtable,
    shown_answer _ _ _ s.db.sstables _ key (final.state.tables key), lookupRuns, memRuns, slot]
  rfl

end Session

theorem drained_run (s : Sys) : s.Run (List.replicate s.todo.length .io) s.drained := by
  generalize steps : s.todo = todo
  induction todo generalizing s with
  | nil =>
      exact (show s.drained = s by rw [Sys.drained, steps, apply_all_nil, ← steps])
  | cons op rest ih =>
      refine ⟨_, .io op rest steps, ?_⟩
      have later := ih { s with disk := op.apply s.disk, todo := rest } rfl
      have same : Sys.drained { s with disk := op.apply s.disk, todo := rest } = s.drained := by
        simp only [Sys.drained, steps, apply_all_cons]
      rwa [same] at later

theorem older_misses (logs : List ValueLog) (gen : UInt32) (rec : Record) (put : rec.op = Op.put)
    (separated : rec.separated = true) (older : rec.vptr.gen ≠ gen) :
    answer logs [(gen, 0)] (some rec) = .error mapAt := by
  have kept : rec.op ≠ Op.delete := by
    rw [put]
    exact put_ne_delete
  have missing : lookupLog logs [(gen, 0)] rec.vptr.gen = none := by simp [lookupLog, logIndex, Ne.symm older]
  rw [answer, if_neg kept, if_pos separated, readPtr, missing]
  rfl

theorem current_means (db : DB) (log : ValueLog) (rec : Record) (value : Option Bytes)
    (current : lookupLog db.logs db.vlogs db.currentGen = some log) (means : Means db.logs db.vlogs rec value)
    (newest : rec.op = Op.put → rec.separated = true → rec.vptr.gen = db.currentGen) :
    Means [ValueLog.opened (vlogName db.currentGen) db.currentGen log.file] [(db.currentGen, 0)] rec value := by
  cases value with
  | none => exact means
  | some v =>
      obtain ⟨put, stored⟩ := means
      refine ⟨put, ?_⟩
      cases separated : rec.separated with
      | false => simpa [separated] using stored
      | true =>
          rw [separated, if_pos rfl, readPtr, newest put separated, current] at stored
          rw [if_pos rfl, readPtr, newest put separated]
          simpa [lookupLog, logIndex, ValueLog.read, ValueLog.opened] using stored

-- Reopening changes nothing exactly when no visible value lies in an older
-- generation, which a MANIFEST rules out.
theorem reopening_idempotent (cfg : Config) (disk : Disk Bytes) (s : Sys) (directory : StoreDirectory disk)
    (opens : Opens cfg disk s) (readable : Readable s.db) (tiered : cfg.leveled = false) :
    (Idempotent s ↔ Current s.db) ∧ ((disk manifestName).isSome = true → Current s.db) := by
  obtain ⟨log, current, answers⟩ := session_answers cfg disk s directory opens readable tiered
  obtain ⟨_, _, _, _, flusher, merges, manifest⟩ := opened_idles cfg disk s directory opens readable.formed tiered
  have found : ∀ key rec, firstMatch Record.key key (lookupRuns s.db) = some rec →
    ∃ value, Means s.db.logs s.db.vlogs rec value := by
    intro key rec first
    obtain ⟨run, member, inside, _⟩ := first_match_some Record.key key _ rec first
    exact lookup_runs_means s.db readable run member rec inside
  refine ⟨⟨fun idempotent key rec first put separated => ?_, fun newest events last background done closed again => ?_⟩,
    fun present key rec first put separated => ?_⟩
  · by_contra older
    have closed : Closed s.drained := ⟨rfl, flusher, merges, opens.doomed, opens.garbage⟩
    have background : ∀ event ∈ List.replicate s.todo.length Event.io, event.Background := by
      intro event member
      rw [List.eq_of_mem_replicate member]
      trivial
    obtain ⟨⟨next, opened⟩, same⟩ := idempotent _ _ background (drained_run s) closed cfg
    obtain ⟨⟨value, answered⟩, _⟩ := same next opened key
    rw [(answers _ _ background (drained_run s) closed cfg).2 next opened key, first,
      older_misses _ _ rec put separated older]
      at answered
    exact nomatch answered
  · obtain ⟨opened, got⟩ := answers events last background done closed again
    refine ⟨opened, fun next opened key => ?_⟩
    rw [got next opened key, DB.get, lookup_reads _ _ key readable.formed]
    cases first : firstMatch Record.key key (lookupRuns s.db) with
    | none => exact ⟨⟨none, rfl⟩, rfl⟩
    | some rec =>
        obtain ⟨value, means⟩ := found key rec first
        rw [means_answer _ _ rec value means,
          means_answer _ _ rec value (current_means s.db log rec value current means (newest key rec first))]
        exact ⟨⟨value, rfl⟩, rfl⟩
  · obtain ⟨value, means⟩ := found key rec first
    by_contra older
    have answered := means_answer _ _ rec value means
    rw [manifest present, older_misses _ _ rec put separated older] at answered
    exact nomatch answered

-- A directory without a MANIFEST: the value of key 1 lies in generation 0, and
-- there is an empty generation 1 or none.
def farValue : Record := ⟨Op.put, [1], [], true, ⟨0, 9, 1⟩⟩

def farTable : Bytes := ((buildTable smallBloom [farValue]).toOption).getD []

def farDisk (newer : Bool) : Disk Bytes := fun name =>
  if name = sstName 0 then some (durable farTable)
  else if name = vlogName 0 then some (durable (vlogEntry [1] [7]))
  else if newer = true ∧ name = vlogName 1 then some (durable [])
  else none

def farNames : List Bytes := vlogName 1 :: storeNames 1

def farStore (newer : Bool) : Option Sys := Sys.opened farNames (smallStore 1000 1) (farDisk newer)

theorem far_present (newer : Bool) (name : Bytes) (file : File) (present : farDisk newer name = some file) :
    file.synced = file.data.length ∧ (name = sstName 0 ∨ name = vlogName 0 ∨ name = vlogName 1) := by
  rw [farDisk] at present
  split at present
  · next table =>
      cases present
      exact ⟨rfl, .inl table⟩
  · split at present
    · next first =>
        cases present
        exact ⟨rfl, .inr (.inl first)⟩
    · split at present
      · next second =>
          cases present
          exact ⟨rfl, .inr (.inr second.2)⟩
      · cases present

theorem far_names (newer : Bool) (name : Bytes) (there : (farDisk newer name).isSome = true) : name ∈ farNames := by
  obtain ⟨file, present⟩ := Option.isSome_iff_exists.mp there
  rcases (far_present newer name file present).2 with rfl | rfl | rfl <;> decide +kernel

theorem far_directory (newer : Bool) : StoreDirectory (farDisk newer) := by
  refine ⟨fun name file present => (far_present newer name file present).1, fun name there => ?_, ?_,
    fun file present => ?_⟩
  · obtain ⟨file, present⟩ := Option.isSome_iff_exists.mp there
    rcases (far_present newer name file present).2 with rfl | rfl | rfl
    · exact .inr (.inl ⟨0, by decide, by simp [tableFiles]⟩)
    · exact .inr (.inr ⟨0, rfl⟩)
    · exact .inr (.inr ⟨1, rfl⟩)
  · cases newer <;> decide +kernel
  · rcases (far_present newer _ file present).2 with same | same | same <;> exact absurd same (by decide +kernel)

theorem far_table : ∃ sst, openTable farTable = .ok sst ∧ Represents sst [farValue] := by
  have storable : ∀ rec ∈ [farValue], Storable rec := by
    intro rec member
    rw [List.mem_singleton.mp member]
    exact ⟨by decide, by decide, by decide, by decide, by decide⟩
  have built : buildTable smallBloom [farValue] = .ok farTable := to_option_ok _ _ (by decide +kernel)
  obtain ⟨sst, opened, _, _, represents⟩ :=
    open_built_table smallBloom [farValue] farTable (List.pairwise_singleton _ _) storable built
  exact ⟨sst, opened, represents⟩

theorem far_opens (newer : Bool) :
    ∃ s ∈ farStore newer, Opens (smallStore 1000 1) (farDisk newer) s ∧ Confined farNames s ∧
    (∀ table ∈ s.db.sstables, Represents table.sst [farValue]) ∧ Readable s.db := by
  have distinct : farNames.Nodup := by decide +kernel
  have shape :
    (farStore newer).map (fun s => (s.db.sstables.map Table.sst, readPtr s.db.logs s.db.vlogs farValue.vptr)) =
      some (((openTable farTable).toOption).toList, .ok [7]) := by
    cases newer <;> decide +kernel
  obtain ⟨s, opened, parts⟩ := Option.map_eq_some_iff.mp shape
  obtain ⟨ssts, read⟩ := Prod.mk.inj parts
  obtain ⟨sst, opens, represents⟩ := far_table
  have tables : ∀ table ∈ s.db.sstables, Represents table.sst [farValue] := by
    intro table member
    have inside : table.sst ∈ s.db.sstables.map Table.sst := List.mem_map_of_mem member
    rw [ssts, opens] at inside
    rw [List.mem_singleton.mp inside]
    exact represents
  obtain ⟨starts, confined⟩ := opened_opens _ _ _ s distinct (far_names newer) opened
  refine ⟨s, opened, starts, confined, tables, fun table member => represents_well_formed _ _ (tables table member), ?_⟩
  intro table member rec inside _ _
  rw [represents_records _ _ (tables table member), List.mem_singleton] at inside
  exact ⟨[7], by rw [inside]; exact read⟩

-- The next constructor deletes generation 0.
theorem older_generation_forgotten :
    ∃ s next, StoreDirectory (farDisk true) ∧ Opens (smallStore 1000 1) (farDisk true) s ∧
    Readable s.db ∧ s.Run (List.replicate s.todo.length .io) s.drained ∧ Closed s.drained ∧
    Opens (smallStore 1000 1) s.drained.disk next ∧ s.db.get [1] = .ok (some [7]) ∧ next.db.get [1] = .error mapAt := by
  obtain ⟨s, opened, opens, confined, _, readable⟩ := far_opens true
  have reads : (farStore true).bind (fun s => if Closed s.drained then
      (Sys.opened farNames (smallStore 1000 1) s.drained.disk).map
        (fun next => (s.db.get [1], next.db.get [1])) else none) =
      some (.ok (some [7]), .error mapAt) := by
    decide +kernel
  rw [opened, Option.bind_some] at reads
  split at reads
  · next closed =>
      obtain ⟨next, again, gets⟩ := Option.map_eq_some_iff.mp reads
      obtain ⟨first, second⟩ := Prod.mk.inj gets
      obtain ⟨opensAgain, _⟩ :=
        opened_opens _ _ _ next (by decide +kernel) (apply_confined _ _ _ confined.present confined.todo) again
      exact ⟨s, next, far_directory true, opens, readable, drained_run s, closed, opensAgain, first, second⟩
  · cases reads

-- With generation 0 alone reopening changes nothing.
theorem one_generation_idempotent : ∃ s ∈ farStore false, Idempotent s := by
  obtain ⟨s, opened, opens, _, tables, readable⟩ := far_opens false
  have shape : (farStore false).map (fun s => (s.db.currentGen, memRuns s.db)) = some (0, [[]]) := by decide +kernel
  rw [opened, Option.map_some, Option.some.injEq] at shape
  obtain ⟨gen, runs⟩ := Prod.mk.inj shape
  refine ⟨s, opened, (reopening_idempotent _ _ s (far_directory false) opens readable rfl).1.mpr ?_⟩
  intro key rec first _ _
  obtain ⟨run, member, inside, _⟩ := first_match_some Record.key key _ rec first
  rw [lookupRuns, runs] at member
  rcases List.mem_append.mp member with inMem | inTables
  · rw [List.mem_singleton.mp inMem] at inside
    cases inside
  · obtain ⟨table, present, rfl⟩ := List.mem_map.mp inTables
    rw [represents_records _ _ (tables table present), List.mem_singleton] at inside
    rw [inside, gen]
    rfl

end Tombstash
