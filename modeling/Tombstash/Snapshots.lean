import Tombstash.Scan
import Tombstash.Strategies

set_option autoImplicit false

namespace Tombstash

-- What scan holds when it releases the shared lock: the rows of the memtables
-- in its window, and its snapshot of the tables and value logs.
structure Window where
  sources : List (List Record)
  tables : List Table
  vlogs : List (UInt32 × Nat)

def scanLocked (db : DB) (start stop : Bytes) : Window := ⟨memSources db start stop, db.sstables, db.vlogs⟩

-- The unlocked part of scan. Each value is read on its own; logs are the value
-- logs as they are when the value of the key is read.
def Window.finish (logs : Bytes → List ValueLog) (start stop : Bytes) (held : Window) :
    Except Error (List (Bytes × Bytes)) := do
  let ranges ← held.tables.mapM (fun table => table.sst.range start stop)
  let sources := held.sources ++ ranges
  kwayMerge Record.key List.head? (fun source => .ok source.tail) (fun rec => scanEmit (logs rec.key) held.vlogs rec)
    (rowCount sources) sources

theorem window_finish_scan (db : DB) (start stop : Bytes) :
    (scanLocked db start stop).finish (fun _ => db.logs) start stop = db.scan start stop := rfl

theorem window_rows (db : DB) (logs : Bytes → List ValueLog) (start stop : Bytes)
    (ascending : ∀ run ∈ lookupRuns db, Ascending Record.key run) (formed : ∀ table ∈ db.sstables, table.sst.WellFormed)
    (means : ∀ run ∈ lookupRuns db, ∀ rec ∈ run, ∃ value, Means (logs rec.key) db.vlogs rec value) :
    ∃ rows, Ascending Record.key rows ∧
      (∀ key, findKey Record.key key rows =
        if start ≤ key ∧ key < stop then firstMatch Record.key key (lookupRuns db) else none) ∧
      (scanLocked db start stop).finish logs start stop =
        .ok (rows.filterMap (fun rec => scanOut (logs rec.key) db.vlogs rec)) := by
  have sources : memSources db start stop ++ windows start stop (tableRuns db.sstables) = windows start stop
    (lookupRuns db) := by
    rw [mem_sources_windows, lookupRuns, windows, windows, windows, List.map_append]
  have sorted : ∀ run ∈ windows start stop (lookupRuns db), Ascending Record.key run := by
    intro run member
    obtain ⟨whole, inside, rfl⟩ := List.mem_map.mp member
    exact ascending_filter Record.key whole _ (ascending whole inside)
  obtain ⟨united, answers⟩ := union_spec Record.key _ (windows start stop (lookupRuns db)) sorted (Nat.le_refl _)
  refine ⟨_, united, fun key => ?_, ?_⟩
  · rw [answers, first_match_windows _ ascending]
  · rw [Window.finish, scanLocked, table_ranges db.sstables formed]
    simp only [bind, Except.bind, sources]
    refine kway_merge_union Record.key List.head? _ Eq list_cursor_model _ _ _ _ _
      (List.forall₂_same.mpr (fun _ _ => rfl)) ?_
    intro run member rec inside
    obtain ⟨whole, present, rfl⟩ := List.mem_map.mp member
    obtain ⟨value, meant⟩ := means whole present rec (List.mem_filter.mp inside).1
    rw [scan_emit_means _ db.vlogs rec value meant, scan_out_means _ db.vlogs rec value meant]

-- Every record a lookup may come across says something, also when the logs have
-- grown since.
theorem held_means (cfg : Config) (db : DB) (split : Split) (logs : List ValueLog) (held : InvAt cfg db split)
    (grows : LogsGrow db.logs logs) (small : ∀ log ∈ logs, log.file.length < offMax) :
    ∀ run ∈ lookupRuns db, Ascending Record.key run ∧ ∀ rec ∈ run, ∃ value, Means logs db.vlogs rec value := by
  obtain ⟨i, log, stamp, sound, hist⟩ := held.refined
  obtain ⟨later, present, grown⟩ := grows i log sound.object
  have object : ∃ later, lookupLog logs db.vlogs log.gen = some later ∧ Grows log later ∧
    later.file.length < offMax := by
    refine ⟨later, ?_, grown, small later (List.mem_of_getElem? present)⟩
    rw [lookupLog, sound.gen, (sound_index db i log sound).1, Option.bind_some, present]
  intro run member
  rcases List.mem_append.mp member with inMem | inTables
  · obtain ⟨table, rfl⟩ := mem_runs_cases db run inMem
    exact ⟨snapshot_ascending table, snapshot_means logs db.vlogs table⟩
  · obtain ⟨table, here, rfl⟩ := List.mem_map.mp inTables
    have ascending := (sound.formed table here).ascending
    refine ⟨ascending, fun rec inside => ?_⟩
    obtain ⟨_, value, _, _, denotes⟩ :=
      (hist.stamped table here).present rec.key rec (ascending_find _ _ ascending rec inside)
    exact ⟨value, denotes_means logs db.vlogs log rec value object denotes⟩

theorem held_scan (cfg : Config) (db : DB) (split : Split) (logs : Bytes → List ValueLog) (held : InvAt cfg db split)
    (grows : ∀ key, LogsGrow db.logs (logs key)) (small : ∀ key, ∀ log ∈ logs key, log.file.length < offMax)
    (start stop : Bytes) :
    ∃ pairs, (scanLocked db start stop).finish logs start stop = .ok pairs ∧ pairs.Pairwise (fun a b => a.1 < b.1) ∧
      ∀ key value, (key, value) ∈ pairs ↔ start ≤ key ∧ key < stop ∧ valueOf split.all key = some value := by
  have formed : ∀ table ∈ db.sstables, table.sst.WellFormed := by
    obtain ⟨_, _, _, sound, _⟩ := held.refined
    exact sound.formed
  have runs := fun key => held_means cfg db split (logs key) held (grows key) (small key)
  have answers := fun key => inv_get cfg db split.all (logs key) key (inv_at_inv cfg db split held)
    (grows key) (small key)
  obtain ⟨rows, ascending, found, scanned⟩ :=
    window_rows db logs start stop (fun run member => (runs [] run member).1) formed
    (fun run member rec inside => (runs rec.key run member).2 rec inside)
  have first : ∀ rec ∈ rows, firstMatch Record.key rec.key (lookupRuns db) = some rec := by
    intro rec member
    have row := ascending_find Record.key rows ascending rec member
    rw [found] at row
    split at row
    · exact row
    · cases row
  have outs : ∀ rec ∈ rows, scanOut (logs rec.key) db.vlogs rec =
      (valueOf split.all rec.key).map (fun v => (rec.key, v)) := by
    intro rec member
    obtain ⟨run, inside, present, _⟩ := first_match_some Record.key rec.key _ rec (first rec member)
    obtain ⟨value, means⟩ := (runs rec.key run inside).2 rec present
    have same : value = valueOf split.all rec.key := Except.ok.inj
      ((lookup_found db (logs rec.key) rec.key formed rec value (first rec member) means).symm.trans (answers rec.key))
    rw [scan_out_means _ _ rec value means, same]
  obtain ⟨sorted, listed⟩ := ascending_listing Record.key rows ascending (valueOf split.all) _ outs
  refine ⟨_, scanned, sorted, fun key value => ?_⟩
  rw [listed, found]
  by_cases inside : start ≤ key ∧ key < stop
  · rw [if_pos inside]
    refine ⟨fun both => ⟨inside.1, inside.2, both.2⟩, fun all => ⟨fun absent => ?_, all.2.2⟩⟩
    have nothing := lookup_absent db (logs key) key formed absent
    rw [answers key, all.2.2] at nothing
    cases nothing
  · rw [if_neg inside]
    exact ⟨fun both => absurd rfl both.1, fun all => absurd ⟨all.1, all.2.1⟩ inside⟩

-- A scan returns the live pairs of its window as they were at its snapshot,
-- once each and in order, though its table and value reads come later, each at
-- a moment of its own, while writes, flushes, merges and collections go on.
theorem scan_reads_its_snapshot (cfg : Config) (start mid : Sys) (before : List Event) (starts : start.Starts cfg)
    (clean : ∀ event ∈ before, event.Clean) (first : start.RunWith EventReady before mid) (moment : Bytes → Sys)
    (later : ∀ key, ∃ after, (∀ event ∈ after, event.Within) ∧ mid.Run after (moment key))
    (low high : Bytes) :
    ∃ pairs, (scanLocked mid.db low high).finish (fun key => (moment key).db.logs) low high = .ok pairs ∧
      pairs.Pairwise (fun a b => a.1 < b.1) ∧
      ∀ key value, (key, value) ∈ pairs ↔ low ≤ key ∧ key < high ∧ valueOf (written before) key = some value := by
  have state := clean_background cfg start mid before starts clean first
  have logs : ∀ key, LogsGrow mid.db.logs (moment key).db.logs ∧
    ∀ log ∈ (moment key).db.logs, log.file.length < offMax := by
    intro key
    obtain ⟨after, within, done⟩ := later key
    exact session_logs mid (moment key) after state.running within done
  obtain ⟨⟨split, kept, whole⟩, _⟩ := state
  rw [← whole]
  exact held_scan mid.cfg mid.db split _ kept.held (fun key => (logs key).1) (fun key => (logs key).2) low high

-- A scan whose window is written to, flushed and merged before it reads.
def scannedStore : List Event := leveledSession ++ whole (.del [5] false) 1 ++ putAndFlush [7] [1]

def scanOvertaken : List Event := putAndFlush [6] [9] ++ leveledMerge

theorem overtaken_scan_reads_its_snapshot :
    ∃ mid last pairs, (Sys.fresh (leveledBy 2)).RunWith EventReady scannedStore mid ∧ mid.Run scanOvertaken last ∧
      (scanLocked mid.db [5] [8]).finish (fun _ => last.db.logs) [5] [8] = .ok pairs ∧ ([6], []) ∈ pairs ∧
      ([7], [1]) ∈ pairs ∧
      ∀ value, ([5], value) ∉ pairs := by
  obtain ⟨last, both⟩ := Option.isSome_iff_exists.mp (by decide +kernel :
    (((Sys.fresh (leveledBy 2)).execAllIn (storeNames 8) readyEvent scannedStore).bind
      (fun mid => mid.execAll scanOvertaken)).isSome = true)
  obtain ⟨mid, done, goes⟩ := Option.bind_eq_some_iff.mp both
  have run := run_with_imp _ EventReady ready_event _ mid _
    (exec_all_in_run (storeNames 8) _ _ mid _ (by decide +kernel) (fresh_confined _ _ (by decide +kernel)) done).1
  have clean : ∀ event ∈ scannedStore, event.Clean := by
    simp [scannedStore, leveledSession, leveledMerge, putAndFlush, whole, Event.Clean]
  have within : ∀ event ∈ scanOvertaken, event.Within := by
    simp [scanOvertaken, leveledMerge, putAndFlush, whole, Event.Within]
  have after := exec_all_run mid last _ goes
  obtain ⟨pairs, scanned, _, listed⟩ :=
    scan_reads_its_snapshot (leveledBy 2) _ mid scannedStore (fresh_starts _) clean run
    (fun _ => last) (fun _ => ⟨scanOvertaken, within, after⟩) [5] [8]
  refine ⟨mid, last, pairs, run, after, scanned, ?_, ?_, fun value member => ?_⟩
  · exact (listed [6] []).mpr ⟨by decide, by decide, by decide +kernel⟩
  · exact (listed [7] [1]).mpr ⟨by decide, by decide, by decide +kernel⟩
  · have gone : valueOf (written scannedStore) [5] = none := by decide +kernel
    have there := ((listed [5] value).mp member).2.2
    rw [gone] at there
    cases there

end Tombstash
