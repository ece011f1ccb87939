import Tombstash.Reads

set_option autoImplicit false

namespace Tombstash

-- Well-formed tables whose value pointers can be read.
structure Readable (db : DB) : Prop where
  formed : ∀ table ∈ db.sstables, table.sst.WellFormed
  resolves : ∀ table ∈ db.sstables, ∀ rec ∈ table.sst.records, rec.op = Op.put → rec.separated = true →
    ∃ value, readPtr db.logs db.vlogs rec.vptr = .ok value

theorem snapshot_means (logs : List ValueLog) (vlogs : List (UInt32 × Nat)) (table : Memtable) (rec : Record)
    (member : rec ∈ table.snapshot) : ∃ value, Means logs vlogs rec value := by
  obtain ⟨entry, _, rfl⟩ := List.mem_map.mp member
  cases dead : entry.2.tombstone with
  | true => exact ⟨none, by simp [Means, entryRecord, dead]⟩
  | false => exact ⟨some entry.2.value, by simp [Means, entryRecord, dead]⟩

theorem lookup_runs_means (db : DB) (readable : Readable db) (run : List Record) (member : run ∈ lookupRuns db)
    (rec : Record) (inside : rec ∈ run) : ∃ value, Means db.logs db.vlogs rec value := by
  rcases List.mem_append.mp member with inMem | inTables
  · obtain ⟨table, rfl⟩ := mem_runs_cases db run inMem
    exact snapshot_means db.logs db.vlogs table rec inside
  · obtain ⟨table, present, rfl⟩ := List.mem_map.mp inTables
    rcases ((readable.formed table present).storable rec inside).op with put | gone
    · cases separated : rec.separated with
      | true =>
          obtain ⟨value, read⟩ := readable.resolves table present rec inside put separated
          exact ⟨some value, put, by rw [separated, if_pos rfl]; exact read⟩
      | false => exact ⟨some rec.value, means_put_inline db.logs db.vlogs rec put separated⟩
    · exact ⟨none, gone⟩

theorem lookup_runs_ascending (db : DB) (readable : Readable db) (run : List Record) (member : run ∈ lookupRuns db) :
    Ascending Record.key run := by
  rcases List.mem_append.mp member with inMem | inTables
  · obtain ⟨table, rfl⟩ := mem_runs_cases db run inMem
    exact snapshot_ascending table
  · obtain ⟨table, present, rfl⟩ := List.mem_map.mp inTables
    exact (readable.formed table present).ascending

def windows (start stop : Bytes) (runs : List (List Record)) : List (List Record) :=
  runs.map (fun run => run.filter (inWindow start stop))

theorem table_ranges (tables : List Table) (formed : ∀ table ∈ tables, table.sst.WellFormed) (start stop : Bytes) :
    tables.mapM (fun table => table.sst.range start stop) = .ok (windows start stop (tableRuns tables)) := by
  induction tables with
  | nil => rfl
  | cons table rest ih =>
      rw [List.mapM_cons, range_window _ _ (formed table (by simp)),
        ih (fun other member => formed other (by simp [member]))]
      rfl

theorem mem_sources_windows (db : DB) (start stop : Bytes) :
    memSources db start stop = windows start stop (memRuns db) := by
  rw [memSources, memRuns, windows, List.map_append]
  congr 1
  · rw [List.map_cons, range_is_window]
    rfl
  · split
    · rw [List.map_cons, range_is_window]
      rfl
    · rfl

theorem first_match_windows (runs : List (List Record)) (ascending : ∀ run ∈ runs, Ascending Record.key run)
    (start stop key : Bytes) :
    firstMatch Record.key key (windows start stop runs) =
      if start ≤ key ∧ key < stop then firstMatch Record.key key runs else none := by
  induction runs with
  | nil => simp [windows, firstMatch]
  | cons run rest ih =>
      have tail := ih (fun other member => ascending other (by simp [member]))
      rw [windows] at tail
      rw [windows, List.map_cons, first_match_cons, tail,
        find_key_filter run (ascending run (by simp)), first_match_cons]
      cases hit : findKey Record.key key run with
      | none => simp
      | some rec =>
          obtain ⟨_, sameKey⟩ := find_key_some Record.key key run rec hit
          by_cases inside : start ≤ key ∧ key < stop
          · simp [inside, inWindow, sameKey]
          · have outside : inWindow start stop rec = false := by
              simp only [inWindow, sameKey, Bool.and_eq_false_iff, decide_eq_false_iff_not]
              tauto
            simp [inside, outside]

def scanOut (logs : List ValueLog) (vlogs : List (UInt32 × Nat)) (rec : Record) : Option (Bytes × Bytes) :=
  ((scanEmit logs vlogs rec).toOption).join

theorem scan_emit_means (logs : List ValueLog) (vlogs : List (UInt32 × Nat)) (rec : Record) (value : Option Bytes)
    (means : Means logs vlogs rec value) : scanEmit logs vlogs rec = .ok (value.map (fun v => (rec.key, v))) := by
  rw [scanEmit]
  cases value with
  | none =>
      have gone : rec.op = Op.delete := means
      rw [if_neg (by rw [gone]; exact put_ne_delete.symm)]
      rfl
  | some v =>
      obtain ⟨put, stored⟩ := means
      rw [if_pos put]
      by_cases separated : rec.separated = true
      · rw [if_pos separated] at stored
        rw [if_pos separated, stored]
        rfl
      · rw [if_neg separated] at stored
        rw [if_neg separated, stored]
        rfl

theorem scan_out_means (logs : List ValueLog) (vlogs : List (UInt32 × Nat)) (rec : Record) (value : Option Bytes)
    (means : Means logs vlogs rec value) : scanOut logs vlogs rec = value.map (fun v => (rec.key, v)) := by
  rw [scanOut, scan_emit_means logs vlogs rec value means]
  rfl

theorem list_cursor_model :
    CursorModel (E := Error) (List.head? : List Record → Option Record) (fun source => .ok source.tail) Eq :=
  ⟨fun _ _ same => by rw [same], fun _ _ run same => ⟨run, by rw [same]; rfl, rfl⟩⟩

theorem scan_rows (db : DB) (readable : Readable db) (start stop : Bytes) :
    ∃ rows, Ascending Record.key rows ∧
      (∀ key, findKey Record.key key rows =
        if start ≤ key ∧ key < stop then firstMatch Record.key key (lookupRuns db) else none) ∧
      db.scan start stop = .ok (rows.filterMap (scanOut db.logs db.vlogs)) := by
  have sources : memSources db start stop ++ windows start stop (tableRuns db.sstables) =
      windows start stop (lookupRuns db) := by
    rw [mem_sources_windows, lookupRuns, windows, windows, windows, List.map_append]
  have ascending : ∀ run ∈ windows start stop (lookupRuns db), Ascending Record.key run := by
    intro run member
    obtain ⟨whole, inside, rfl⟩ := List.mem_map.mp member
    exact ascending_filter Record.key whole _ (lookup_runs_ascending db readable whole inside)
  obtain ⟨sorted, answers⟩ := union_spec Record.key (rowCount (windows start stop (lookupRuns db)))
    (windows start stop (lookupRuns db)) ascending (Nat.le_refl _)
  refine ⟨_, sorted, fun key => ?_, ?_⟩
  · rw [answers, first_match_windows _ (lookup_runs_ascending db readable)]
  · have emits : ∀ run ∈ windows start stop (lookupRuns db), ∀ rec ∈ run,
        scanEmit db.logs db.vlogs rec = .ok (scanOut db.logs db.vlogs rec) := by
      intro run member rec inside
      obtain ⟨whole, present, rfl⟩ := List.mem_map.mp member
      obtain ⟨value, means⟩ := lookup_runs_means db readable whole present rec (List.mem_filter.mp inside).1
      rw [scan_emit_means db.logs db.vlogs rec value means, scan_out_means db.logs db.vlogs rec value means]
    rw [DB.scan, table_ranges db.sstables readable.formed]
    simp only [bind, Except.bind, sources]
    exact kway_merge_union Record.key List.head? _ Eq list_cursor_model _ _ _ _ _
      (List.forall₂_same.mpr (fun _ _ => rfl)) emits

-- scan returns exactly what get returns on the keys of its window, each key
-- once and in ascending order.
theorem scan_agrees_with_get (db : DB) (start stop : Bytes) (readable : Readable db) :
    ∃ pairs, db.scan start stop = .ok pairs ∧ pairs.Pairwise (fun a b => a.1 < b.1) ∧
      ∀ key value, (key, value) ∈ pairs ↔ start ≤ key ∧ key < stop ∧ db.get key = .ok (some value) := by
  obtain ⟨rows, ascending, answers, scanned⟩ := scan_rows db readable start stop
  have rowMeans : ∀ rec ∈ rows, ∃ value, Means db.logs db.vlogs rec value ∧
      (start ≤ rec.key ∧ rec.key < stop) ∧ firstMatch Record.key rec.key (lookupRuns db) = some rec := by
    intro rec member
    have found := ascending_find Record.key rows ascending rec member
    rw [answers] at found
    split at found
    · obtain ⟨run, inside, present, _⟩ := first_match_some Record.key rec.key _ rec found
      obtain ⟨value, means⟩ := lookup_runs_means db readable run inside rec present
      exact ⟨value, means, by assumption, found⟩
    · cases found
  refine ⟨_, scanned, ?_, ?_⟩
  · rw [List.pairwise_filterMap]
    refine List.Pairwise.imp_of_mem ?_ ascending
    intro a b inA inB less first outA second outB
    obtain ⟨valueA, meansA, _⟩ := rowMeans a inA
    obtain ⟨valueB, meansB, _⟩ := rowMeans b inB
    rw [scan_out_means _ _ _ _ meansA] at outA
    rw [scan_out_means _ _ _ _ meansB] at outB
    obtain ⟨_, _, rfl⟩ := Option.map_eq_some_iff.mp outA
    obtain ⟨_, _, rfl⟩ := Option.map_eq_some_iff.mp outB
    exact less
  · intro key value
    rw [List.mem_filterMap]
    constructor
    · rintro ⟨rec, member, out⟩
      obtain ⟨meant, means, inside, found⟩ := rowMeans rec member
      rw [scan_out_means _ _ _ _ means] at out
      obtain ⟨v, rfl, same⟩ := Option.map_eq_some_iff.mp out
      cases same
      exact ⟨inside.1, inside.2, lookup_found db db.logs rec.key readable.formed rec (some value) found means⟩
    · rintro ⟨low, high, got⟩
      cases found : firstMatch Record.key key (lookupRuns db) with
      | none =>
          rw [DB.get, lookup_absent db db.logs key readable.formed found] at got
          cases got
      | some rec =>
          obtain ⟨run, inside, present, sameKey⟩ := first_match_some Record.key key _ rec found
          obtain ⟨meant, means⟩ := lookup_runs_means db readable run inside rec present
          rw [DB.get, lookup_found db db.logs key readable.formed rec meant found means] at got
          cases got
          have row : findKey Record.key key rows = some rec := by rw [answers, if_pos ⟨low, high⟩, found]
          refine ⟨rec, (find_key_some Record.key key rows rec row).1, ?_⟩
          rw [scan_out_means _ _ _ _ means, ← sameKey]
          rfl

-- A store with a put in the memtable, a tombstone in the sealed memtable and
-- a table that holds an inline value, a shadowed one and a separated one.
def layeredRecords : List Record :=
  [⟨Op.put, [0x61], [0x31], false, {}⟩, ⟨Op.put, [0x62], [0x32], false, {}⟩, ⟨Op.put, [0x63], [], true, ⟨0, 9, 1⟩⟩]

def layeredStore : DB :=
  { memtable := memOf [([0x64], some [0x34])]
    flushingMemtable := memOf [([0x62], none)]
    hasFlushing := true
    sstables := match buildTable smallBloom layeredRecords >>= openTable with
      | .ok sst => [⟨0, sstName 0, 0, sst⟩]
      | .error _ => []
    logs := [⟨vlogName 0, 0, vlogEntry [0x63] [0x33], 10⟩]
    vlogs := [(0, 0)] }

theorem layered_readable : Readable layeredStore := by
  have ascending : Ascending Record.key layeredRecords := by
    rw [Ascending]
    decide +kernel
  have storable : ∀ rec ∈ layeredRecords, Storable rec := by
    intro rec member
    simp only [layeredRecords, List.mem_cons, List.not_mem_nil, or_false] at member
    rcases member with rfl | rfl | rfl <;> exact ⟨by decide, by decide, by decide, by decide, by decide⟩
  have tables : ∀ table ∈ layeredStore.sstables, Represents table.sst layeredRecords := by
    intro table member
    simp only [layeredStore] at member
    cases built : buildTable smallBloom layeredRecords with
    | error e => simp [built, bind, Except.bind] at member
    | ok file =>
        obtain ⟨sst, opened, _, _, represents⟩ :=
          open_built_table smallBloom layeredRecords file ascending storable built
        simp only [built, opened, bind, Except.bind, List.mem_singleton] at member
        rw [member]
        exact represents
  refine ⟨fun table member => represents_well_formed _ _ (tables table member), ?_⟩
  intro table member rec inside _ separated
  rw [represents_records _ _ (tables table member)] at inside
  refine ⟨[0x33], ?_⟩
  simp only [layeredRecords, List.mem_cons, List.not_mem_nil, or_false] at inside
  rcases inside with rfl | rfl | rfl
  · cases separated
  · cases separated
  · decide +kernel

theorem layered_scan_agrees_with_get :
    layeredStore.scan [0x61] [0x64] = .ok [([0x61], [0x31]), ([0x63], [0x33])] ∧
      ∃ pairs, layeredStore.scan [0x61] [0x64] = .ok pairs ∧ pairs.Pairwise (fun a b => a.1 < b.1) ∧
        ∀ key value, (key, value) ∈ pairs ↔ [0x61] ≤ key ∧ key < [0x64] ∧ layeredStore.get key = .ok (some value) :=
  ⟨by decide +kernel, scan_agrees_with_get layeredStore [0x61] [0x64] layered_readable⟩

end Tombstash
