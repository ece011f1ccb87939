import Tombstash.Pointers

set_option autoImplicit false

namespace Tombstash

variable {found : Bytes} {serial : Prop}

theorem read_grows (log later : ValueLog) (ptr : ValuePtr) (small : log.file.length < offMax) (grows : Grows log later)
    (inside : ptr.offset.toNat + ptr.len.toNat ≤ log.file.length) : later.read ptr = log.read ptr := by
  obtain ⟨extra, eq⟩ := grows.file
  have before : ¬ (ptr.offset.toNat ≥ offMax ∨ ptr.offset.toNat + ptr.len.toNat > log.file.length) := by omega
  have after : ¬ (ptr.offset.toNat ≥ offMax ∨ ptr.offset.toNat + ptr.len.toNat > log.file.length + extra.length) := by
    omega
  rw [ValueLog.read, ValueLog.read, preadRange, preadRange, ← eq, slice_append_left _ _ _ _ inside, List.length_append,
    if_neg before, if_neg after]

theorem read_again (log later : ValueLog) (ptr : ValuePtr) (value : Bytes) (small : log.file.length < offMax)
    (grows : Grows log later) (read : log.read ptr = .ok value) : later.read ptr = log.read ptr := by
  by_cases empty : ptr.len.toNat = 0
  · rw [ValueLog.read, ValueLog.read, preadRange, preadRange, if_pos empty, if_pos empty]
  · refine read_grows log later ptr small grows (Nat.le_of_not_lt (fun beyond => ?_))
    rw [ValueLog.read, preadRange, if_neg empty, if_pos (.inr beyond)] at read
    cases read

theorem answer_grows (db : DB) (i : Nat) (log later : ValueLog) (logs : List ValueLog) (rec : Record)
    (sound : Sound serial db i log) (present : logs[i]? = some later)
    (reads : rec.op ≠ Op.delete → rec.separated = true → rec.vptr.gen = log.gen →
      later.read rec.vptr = log.read rec.vptr) :
    answer logs db.vlogs (some rec) = answer db.logs db.vlogs (some rec) := by
  by_cases deleted : rec.op = Op.delete
  · rw [answer, answer, if_pos deleted, if_pos deleted]
  by_cases separated : rec.separated = true
  · have same : readPtr logs db.vlogs rec.vptr = readPtr db.logs db.vlogs rec.vptr := by
      by_cases current : rec.vptr.gen = log.gen
      · have grown : lookupLog logs db.vlogs db.currentGen = some later := by
          rw [lookupLog, (sound_index db i log sound).1, Option.bind_some, present]
        rw [readPtr, readPtr, current, sound.gen, (sound_index db i log sound).2, grown]
        exact reads deleted separated current
      · rw [sound.gen] at current
        have missing : ∀ logs : List ValueLog, lookupLog logs db.vlogs rec.vptr.gen = none := fun logs => by
          simp [lookupLog, logIndex, sound.vlogs, Ne.symm current]
        rw [readPtr, readPtr, missing, missing]
    rw [answer, answer, same]
  · rw [answer, answer, if_neg separated, if_neg separated]

theorem first_match_held (db : DB) (key : Bytes) (rec : Record)
    (hit : firstMatch Record.key key (tableRuns db.sstables) = some rec) : Held db rec := by
  obtain ⟨run, member, inside, _⟩ := first_match_some Record.key key _ rec hit
  obtain ⟨table, present, rfl⟩ := List.mem_map.mp member
  exact .inl ⟨table, present, inside⟩

-- What a lookup of the key reads it would read in a longer log as well.
def Steady (db : DB) (log : ValueLog) (key : Bytes) : Prop :=
  ∀ rec, firstMatch Record.key key (lookupRuns db) = some rec → rec.op ≠ Op.delete → rec.separated = true →
    rec.vptr.gen = log.gen → ∀ later, Grows log later → later.read rec.vptr = log.read rec.vptr

theorem pointed_steady (db : DB) (i : Nat) (log : ValueLog) (sound : Sound serial db i log) (pointed : Pointed db log)
    (key : Bytes) :
    Steady db log key := by
  intro rec hit _ separated current later grows
  rw [lookupRuns, first_match_append] at hit
  cases recent : firstMatch Record.key key (memRuns db) with
  | none =>
      rw [recent, Option.none_or] at hit
      exact read_grows log later rec.vptr sound.aligned.small grows
        ((pointed rec (first_match_held db key rec hit) separated).2 current)
  | some top =>
      -- Memtables hold their values inline.
      rw [recent, Option.some_or] at hit
      cases hit
      obtain ⟨run, member, inside, _⟩ := first_match_some Record.key key _ rec recent
      obtain ⟨table, rfl⟩ := mem_runs_cases db run member
      rw [(snapshot_shaped table rec inside).2] at separated
      cases separated

theorem answered_steady (db : DB) (i : Nat) (log : ValueLog) (sound : Sound serial db i log) (key : Bytes)
    (value : Option Bytes) (answered : db.get key = .ok value) : Steady db log key := by
  intro rec hit kept separated current later grows
  rw [DB.get, lookup_reads db db.logs key sound.formed, hit, answer, if_neg kept, if_pos separated, readPtr,
    current, sound.gen, (sound_index db i log sound).2] at answered
  cases read : log.read rec.vptr with
  | error e =>
      simp only [read] at answered
      cases answered
  | ok bytes => exact (read_again log later rec.vptr bytes sound.aligned.small grows read).trans read

theorem empty_memtable_runs (db : DB) (key : Bytes) (empty : db.memtable.isEmpty = true)
    (free : db.hasFlushing = false) :
    firstMatch Record.key key (lookupRuns db) = firstMatch Record.key key (tableRuns db.sstables) := by
  have nothing : db.memtable.snapshot = [] := by
    rw [Memtable.snapshot, List.isEmpty_iff.mp empty]
    rfl
  rw [lookupRuns, memRuns, free, nothing]
  rfl

theorem flush_keeps_get (cfg : Config) (db next : DB) (i : Nat) (log : ValueLog) (ops : List DiskOp)
    (sound : Sound serial db i log) (free : db.hasFlushing = false) (done : flushLocked cfg db = .ok (next, ops))
    (key : Bytes) (steady : Steady db log key) :
    next.get key = db.get key := by
  rcases flush_returns cfg db next ops done with
    ⟨_, rfl, _⟩ | ⟨k, current, grown, recs, vlogOps, bytes, sst, _, index, object, separated, built, rfl, _⟩
  · rfl
  obtain ⟨rfl, rfl⟩ := sound_current db i log sound k current index object
  obtain ⟨appended, separations⟩ := separate_all_spec cfg log grown _ recs vlogOps sound.aligned separated
  obtain ⟨represents, _⟩ := snapshot_table cfg db.memtable grown recs bytes sst separations built
  have made := sound_flushed cfg db i log grown recs vlogOps bytes sst sound free separated built
  have nextFree : (flushedDb db i grown sst).hasFlushing = false := free
  rw [DB.get, DB.get, lookup_reads _ _ key made.formed, lookup_reads db db.logs key sound.formed,
    empty_memtable_runs _ key rfl nextFree]
  have runs : firstMatch Record.key key (lookupRuns db) =
      (findKey Record.key key db.memtable.snapshot).or (firstMatch Record.key key (tableRuns db.sstables)) := by
    rw [lookupRuns, memRuns, free, if_neg (by simp), List.append_nil, List.singleton_append, first_match_cons]
  have nextRuns : firstMatch Record.key key (tableRuns (flushedDb db i grown sst).sstables) =
      (findKey Record.key key recs).or (firstMatch Record.key key (tableRuns db.sstables)) := by
    rw [show tableRuns (flushedDb db i grown sst).sstables = sst.records :: tableRuns db.sstables from rfl,
      first_match_cons, represents_records sst recs represents]
  rw [runs, nextRuns]
  rcases find_key_related Record.key _ _ recs separations (fun _ _ separation => separation.key) key with
    ⟨missing, gone⟩ | ⟨original, stored, hit, moved, separation⟩
  · rw [missing, gone, Option.none_or]
    cases older : firstMatch Record.key key (tableRuns db.sstables) with
    | none => rfl
    | some rec =>
        exact answer_grows db i log grown _ rec sound made.object (fun kept separated current =>
          steady rec (by rw [runs, missing, Option.none_or, older]) kept separated current grown appended.grows)
  · rw [hit, moved, Option.some_or, Option.some_or]
    obtain ⟨shaped, inline⟩ := snapshot_shaped db.memtable original (find_key_some _ _ _ _ hit).1
    rcases separation.stored with same | ⟨isSeparated, _, put, gen, points⟩
    · rw [same, answer, answer, inline]
      rfl
    · have read : readPtr (flushedDb db i grown sst).logs (flushedDb db i grown sst).vlogs stored.vptr =
        .ok original.value := by
        rw [readPtr, gen, made.gen, (sound_index _ i grown made).2]
        exact points_read grown stored.vptr _ made.aligned.small points
      rw [answer, answer, separation.op, put, if_neg put_ne_delete, if_neg put_ne_delete, isSeparated,
        inline, if_pos rfl, read]
      rfl

-- The value that a get of a live key returns.
def liveValue (db : DB) (key : Bytes) : Bytes :=
  match db.get key with
  | .ok (some value) => value
  | _ => []

-- What gc_value_log leaves of a store with tables, when existing was in the
-- file of its new generation.
structure KeepsLive (before : DB) (existing : Bytes) (after : DB) (table : Table) (log : ValueLog) : Prop where
  single : after.sstables = [table]
  formed : table.sst.WellFormed
  ascending : Ascending Record.key table.sst.records
  puts : ∀ rec ∈ table.sst.records, rec.op = Op.put
  live : ∀ key, (∃ rec ∈ table.sst.records, rec.key = key) ↔ ∃ value, before.get key = .ok (some value)
  gen : after.currentGen = before.currentGen + 1
  vlogs : after.vlogs.map Prod.fst = [after.currentGen]
  current : lookupLog after.logs after.vlogs after.currentGen = some log
  points : ∀ rec ∈ table.sst.records, InRange log rec
  file : log.file = existing ++
    (table.sst.records.filter Record.separated).flatMap (fun rec => vlogEntry rec.key (liveValue before rec.key))

section Collected

variable (cfg : Config) (db : DB) (i : Nat) (log : ValueLog) (existing : Bytes) (merged relocated : List Record)
  (opened later : ValueLog) (ops : List DiskOp) (bytes : Bytes) (sst : SSTable)
  (sound : Sound serial db i log) (free : db.hasFlushing = false) (idle : inFlight db = [])
  (empty : db.memtable.isEmpty = true) (merges : mergeRecords (db.sstables.map Table.sst) true = .ok merged)
  (opens : openLog (vlogName (db.currentGen + 1)) (db.currentGen + 1) existing = .ok opened)
  (relocates : relocateAll db.logs db.vlogs opened merged = .ok (later, relocated, ops))
  (built : buildAndOpen cfg relocated = .ok (bytes, sst))

include sound free empty merges in
theorem merged_answers (key : Bytes) :
    (findKey Record.key key merged = none ∧ db.get key = .ok none) ∨
      ∃ rec, findKey Record.key key merged = some rec ∧ rec.op = Op.put ∧
      db.get key = answer db.logs db.vlogs (some rec) := by
  obtain ⟨records, done, _, origin, answers⟩ := merge_tables_spec db.sstables sound.formed true
  rw [merges] at done
  cases done
  rw [DB.get, lookup_reads db db.logs key sound.formed, empty_memtable_runs db key empty free, answers key]
  cases hit : firstMatch Record.key key (tableRuns db.sstables) with
  | none => exact .inl ⟨rfl, rfl⟩
  | some rec =>
      obtain ⟨run, member, inside, _⟩ := first_match_some Record.key key _ rec hit
      obtain ⟨table, present, rfl⟩ := List.mem_map.mp member
      rcases ((sound.formed table present).storable rec inside).op with put | gone
      · refine .inr ⟨rec, ?_, put, rfl⟩
        simp [Option.filter, keptBy, put, put_ne_delete]
      · refine .inl ⟨by simp [Option.filter, keptBy, gone], ?_⟩
        rw [answer, if_pos gone]

variable (relocations : List.Forall₂ (Relocation db.logs db.vlogs later) merged relocated)
    (ascending : Ascending Record.key merged)

include sound free empty merges ascending in
theorem merged_live (original : Record) (member : original ∈ merged) :
    original.op = Op.put ∧ db.get original.key = answer db.logs db.vlogs (some original) := by
  have found := ascending_find Record.key merged ascending original member
  rcases merged_answers db i log merged sound free empty merges original.key with ⟨none, _⟩ | ⟨other, there, put, same⟩
  · rw [found] at none
    cases none
  · rw [found] at there
    cases there
    exact ⟨put, same⟩

theorem survivor_value (made : Sound serial (collectedDb db later sst) db.logs.length later) (original rec : Record)
    (relocation : Relocation db.logs db.vlogs later original rec) (put : original.op = Op.put) :
    ∃ value, answer db.logs db.vlogs (some original) = .ok (some value) ∧
      answer (collectedDb db later sst).logs (collectedDb db later sst).vlogs (some rec) = .ok (some value) := by
  have live : original.op ≠ Op.delete := by
    rw [put]
    exact put_ne_delete
  cases separated : original.separated with
  | false =>
      have inline : ∀ logs vlogs, answer logs vlogs (some original) = .ok (some original.value) := by
        intro logs vlogs
        rw [answer, if_neg live, separated]
        rfl
      rw [relocation.inline separated]
      exact ⟨original.value, inline _ _, inline _ _⟩
  | true =>
      obtain ⟨value, read, gen, points⟩ := relocation.moved separated
      have again : readPtr (collectedDb db later sst).logs (collectedDb db later sst).vlogs rec.vptr = .ok value := by
        rw [readPtr, gen, made.gen, (sound_index _ _ later made).2]
        exact points_read later rec.vptr value made.aligned.small points
      refine ⟨value, ?_, ?_⟩
      · rw [answer, if_neg live, separated, if_pos rfl, read]
        rfl
      · rw [answer, relocation.op, if_neg live, relocation.separated, separated, if_pos rfl, again]
        rfl

include sound free empty merges relocations in
theorem collected_get (made : Sound serial (collectedDb db later sst) db.logs.length later)
    (records : sst.records = relocated) (key : Bytes) : (collectedDb db later sst).get key = db.get key := by
  have runs : firstMatch Record.key key (lookupRuns (collectedDb db later sst)) = findKey Record.key key relocated := by
    rw [empty_memtable_runs (collectedDb db later sst) key empty free, tableRuns, ← records]
    exact (first_match_cons Record.key key sst.records []).trans Option.or_none
  rw [DB.get, lookup_reads _ _ key made.formed, runs]
  rcases find_key_related Record.key _ merged relocated relocations (fun _ _ relocation => relocation.key) key with
    ⟨missing, gone⟩ | ⟨original, rec, hit, moved, relocation⟩
  · rcases merged_answers db i log merged sound free empty merges key with ⟨_, none⟩ | ⟨other, there, _⟩
    · rw [gone, none]
      rfl
    · rw [missing] at there
      cases there
  · rcases merged_answers db i log merged sound free empty merges key with ⟨none, _⟩ | ⟨other, there, put, same⟩
    · rw [hit] at none
      cases none
    · rw [hit] at there
      cases there
      obtain ⟨value, before, after⟩ := survivor_value db later sst made original rec relocation put
      rw [moved, after, same, before]

include relocations in
theorem copied_entries (entry : Bytes → Bytes) :
    (merged.filter Record.separated).flatMap (fun rec => entry rec.key) =
      (relocated.filter Record.separated).flatMap (fun rec => entry rec.key) := by
  induction relocations with
  | nil => rfl
  | cons here _ ih =>
      rw [List.filter_cons, List.filter_cons, here.separated]
      split
      · rw [List.flatMap_cons, List.flatMap_cons, ih, here.key]
      · exact ih

include sound free idle empty merges opens relocates built in
theorem collected_keeps :
    (∀ key, (collectedDb db later sst).get key = db.get key) ∧
      KeepsLive db existing (collectedDb db later sst) ⟨db.nextId, sstName db.nextSeq, 0, sst⟩ later := by
  obtain ⟨made, represents⟩ :=
    sound_collected cfg db i log existing merged relocated opened later ops bytes sst sound free
    (fun _ => idle) merges opens relocates built
  obtain ⟨shape, aligned⟩ := open_log_spec _ _ existing opened opens
  obtain ⟨_, relocations⟩ := relocate_all_spec db.logs db.vlogs opened later merged relocated ops aligned relocates
  obtain ⟨ascending, _, _⟩ := merged_records_fit db.sstables sound.formed true merged merges
  have records := represents_records sst relocated represents
  have gets := collected_get db i log merged relocated later sst sound free empty merges relocations made records
  have live := merged_live db i log merged sound free empty merges ascending
  have values : ∀ original ∈ merged, original.separated = true →
    ∀ value, readPtr db.logs db.vlogs original.vptr = .ok value →
      value = liveValue db original.key := by
    intro original member separated value read
    obtain ⟨put, same⟩ := live original member
    rw [liveValue, same, answer, if_neg (by rw [put]; exact put_ne_delete), separated, if_pos rfl, read]
    rfl
  have file :=
    relocate_all_file db.logs db.vlogs opened later merged relocated ops (liveValue db) aligned values relocates
  have origin : ∀ rec ∈ sst.records, ∃ original ∈ merged, Relocation db.logs db.vlogs later original rec := by
    rw [records]
    exact forall_two_right _ merged relocated relocations
  refine ⟨gets, ?_⟩
  refine
    { single := rfl
      formed := made.formed _ (by simp [collectedDb])
      ascending := by rw [records]; exact relocations_ascending _ _ later merged relocated relocations ascending
      puts := fun rec member => ?_
      live := fun key => ⟨?_, ?_⟩
      gen := rfl
      vlogs := rfl
      current := (sound_index _ _ later made).2
      points := fun rec member => ?_
      file := ?_ }
  · obtain ⟨original, inside, relocation⟩ := origin rec member
    rw [relocation.op]
    exact (live original inside).1
  · rintro ⟨rec, member, rfl⟩
    obtain ⟨original, inside, relocation⟩ := origin rec member
    obtain ⟨put, same⟩ := live original inside
    obtain ⟨value, before, _⟩ := survivor_value db later sst made original rec relocation put
    exact ⟨value, by rw [relocation.key, same, before]⟩
  · rintro ⟨value, got⟩
    rcases merged_answers db i log merged sound free empty merges key with ⟨_, none⟩ | ⟨original, there, _⟩
    · rw [got] at none
      cases none
    · obtain ⟨inside, same⟩ := find_key_some Record.key key merged original there
      obtain ⟨rec, member, relocation⟩ := forall_two_left _ merged relocated relocations original inside
      exact ⟨rec, by rw [records]; exact member, by rw [relocation.key, same]⟩
  · obtain ⟨original, _, relocation⟩ := origin rec member
    exact relocation_in_range _ _ later original rec relocation
  · rw [records, file, shape]
    exact congrArg (existing ++ ·)
      (copied_entries db merged relocated later relocations (fun key => vlogEntry key (liveValue db key)))

end Collected

theorem flush_keeps_jobs (cfg : Config) (db next : DB) (ops : List DiskOp)
    (done : flushLocked cfg db = .ok (next, ops)) :
    inFlight next = inFlight db ∧ next.currentGen = db.currentGen := by
  rcases flush_returns cfg db next ops done with ⟨_, rfl, _⟩ | ⟨_, _, _, _, _, _, _, _, _, _, _, _, rfl, _⟩
  · exact ⟨rfl, rfl⟩
  · exact ⟨rfl, rfl⟩

theorem gc_keeps (cfg : Config) (db : DB) (i : Nat) (log : ValueLog) (existing : Bytes) (effect : Effect)
    (sound : Sound True db i log) (free : db.hasFlushing = false) (idle : inFlight db = [])
    (done : gcValueLog cfg db existing = .ok effect) :
    (∀ key, effect.db.get key = db.get key) ∧
      ∀ flushed ops, flushLocked cfg db = .ok (flushed, ops) → flushed.sstables ≠ [] →
        ∃ table log, KeepsLive db existing effect.db table log := by
  obtain ⟨flushed, flushOps, flush, outcome⟩ := gc_returns cfg db existing effect done
  obtain ⟨⟨kind, plain, move⟩, empty, stillFree, _⟩ := @flush_locked_move [] cfg db flushed flushOps free flush
  obtain ⟨j, later, after, _⟩ := move_sound cfg db i log kind flushed flushOps [] sound move
    (fun _ picks => by rcases plain with rfl | rfl <;> cases picks)
  have gets : ∀ key, flushed.get key = db.get key := fun key =>
    flush_keeps_get cfg db flushed i log flushOps sound free flush key
      (pointed_steady db i log sound (sound_pointed db i log sound) key)
  obtain ⟨jobs, gen⟩ := flush_keeps_jobs cfg db flushed flushOps flush
  rcases outcome with
    ⟨none, same⟩ | ⟨filled, merged, opened, grown, relocated, ops, bytes, sst, merges, opens, relocates, built, same⟩
  · subst same
    refine ⟨gets, fun other more again there => ?_⟩
    rw [flush] at again
    cases again
    exact absurd none there
  · obtain ⟨collected, keeps⟩ :=
      collected_keeps cfg flushed j later existing merged relocated opened grown ops bytes sst after
      stillFree (jobs.trans idle) empty merges opens relocates built
    subst same
    refine ⟨fun key => (collected key).trans (gets key),
      fun _ _ _ _ => ⟨_, grown, { keeps with live := ?_, gen := ?_, file := ?_ }⟩⟩
    · intro key
      rw [keeps.live key, gets key]
    · rw [keeps.gen, gen]
    · rw [keeps.file]
      simp only [liveValue, gets]

-- gc_value_log with no merge and no flush in flight, in any state that runs
-- without overlapping merges reach, crashes and reopenings included: it can fail
-- only in the file system, gets stay as they are and one table with the live
-- keys is left.
theorem gc_keeps_live_values (cfg : Config) (start last : Sys) (events : List Event) (starts : start.Starts cfg)
    (done : start.Run events last) (calm : CalmEvents start events) (free : last.db.hasFlushing = false)
    (idle : inFlight last.db = []) (existing : Bytes) :
    OnlyIo (gcValueLog last.cfg last.db existing) ∧
      ∀ effect, gcValueLog last.cfg last.db existing = .ok effect →
        (∀ key, effect.db.get key = last.db.get key) ∧
          ∀ flushed ops, flushLocked last.cfg last.db = .ok (flushed, ops) → flushed.sstables ≠ [] →
            ∃ table log, KeepsLive last.db existing effect.db table log := by
  have running := calm_events_running sized_carried cfg start last events starts calm done
  obtain ⟨i, log, sound, _⟩ := running.inv.state
  exact ⟨gc_only_io last.cfg last.db i log sound running.holds.1 free existing, fun effect returned =>
    gc_keeps last.cfg last.db i log existing effect sound free idle returned⟩

-- The flag that compact_all lowers during a background merge lets gc start; once
-- the merge has installed nothing is in flight, and the next gc looks for the
-- generation that is gone.
theorem second_gc_throws :
    (run (smallStore 1000 1) DB.fresh (shadowedKey ++ clearedFlag ++ [.gc [], .mergeInstall .compactor])).map (fun db =>
      (db.hasFlushing, (inFlight db).length, db.sstables.length,
        (gcValueLog (smallStore 1000 1) db []).map (fun _ => ()))) =
    some (false, 0, 2, .error mapAt) := by
  decide +kernel

-- One value in a table, its new version in the memtable.
def rewrittenValue : List Event :=
  List.replicate 7 .io ++ whole (.put [1] [2, 3] false) 1 ++ whole .flush 13 ++ whole (.put [1] [4] true) 2

theorem rewritten_value_collected :
    ∃ last effect table log, (Sys.fresh (smallStore 1000 1)).execAll rewrittenValue = some last ∧
      gcValueLog last.cfg last.db [] = .ok effect ∧ effect.db.get [1] = .ok (some [4]) ∧
      KeepsLive last.db [] effect.db table log := by
  obtain ⟨last, done⟩ := Option.isSome_iff_exists.mp
    (by decide +kernel : ((Sys.fresh (smallStore 1000 1)).execAll rewrittenValue).isSome = true)
  have state :
    ((Sys.fresh (smallStore 1000 1)).execAll rewrittenValue).map (fun s => (s.db.hasFlushing, (inFlight s.db).length)) =
      some (false, 0) := by
    decide +kernel
  have value : ((Sys.fresh (smallStore 1000 1)).execAll rewrittenValue).map (fun s => s.db.get [1]) = some
    (.ok (some [4])) := by
    decide +kernel
  have returns :
    ((Sys.fresh (smallStore 1000 1)).execAll rewrittenValue).map (fun s => ((gcValueLog s.cfg s.db []).isOk,
      (flushLocked s.cfg s.db).toOption.map (fun flushed => flushed.1.sstables.length))) = some (true, some 2) := by
    decide +kernel
  rw [done, Option.map_some, Option.some.injEq] at state value returns
  obtain ⟨free, idle⟩ := Prod.mk.inj state
  obtain ⟨collects, tables⟩ := Prod.mk.inj returns
  have calm : CalmEvents (Sys.fresh (smallStore 1000 1)) rewrittenValue := by
    rintro before event after mid split _ _ label rfl picks
    have inside : Event.lock label ∈ rewrittenValue := by simp [split]
    rcases picks with rfl | rfl <;> simp [rewrittenValue, whole] at inside
  cases gc : gcValueLog last.cfg last.db [] with
  | error e =>
      rw [gc] at collects
      cases collects
  | ok effect =>
      cases flush : flushLocked last.cfg last.db with
      | error e =>
          rw [flush] at tables
          cases tables
      | ok flushed =>
          rw [flush] at tables
          have filled : flushed.1.sstables ≠ [] := fun none => by simp [Except.toOption, none] at tables
          obtain ⟨gets, live⟩ := (gc_keeps_live_values (smallStore 1000 1) _ last rewrittenValue (fresh_starts _)
            (exec_all_run _ last rewrittenValue done) calm free (List.eq_nil_of_length_eq_zero idle) []).2 effect gc
          obtain ⟨table, log, keeps⟩ := live flushed.1 flushed.2 flush filled
          exact ⟨last, effect, table, log, done, gc, by rw [gets, value], keeps⟩

end Tombstash
