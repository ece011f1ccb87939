import Tombstash.DB

set_option autoImplicit false

namespace Tombstash

-- What get holds when it releases the shared lock: an answer from a memtable,
-- or its snapshot of the tables and value logs.
inductive Lookup where
  | answered (value : Option Bytes)
  | search (tables : List Table) (vlogs : List (UInt32 × Nat)) (useBloom : Bool)

def getLocked (db : DB) (key : Bytes) : Lookup :=
  match db.memtable.get key with
  | some v => .answered (some v)
  | none =>
      if db.memtable.isTombstone key then .answered none
      else if db.hasFlushing then
        match db.flushingMemtable.get key with
        | some v => .answered (some v)
        | none =>
            if db.flushingMemtable.isTombstone key then .answered none
            else .search db.sstables db.vlogs db.bloomEnabled
      else .search db.sstables db.vlogs db.bloomEnabled

-- The unlocked part of get; logs are the value logs as they are then.
def getTables (logs : List ValueLog) (vlogs : List (UInt32 × Nat)) (useBloom : Bool) (key : Bytes) :
    List Table → Except Error (Option Bytes)
  | [] => .ok none
  | table :: rest =>
      if useBloom && !table.sst.mayContain key then getTables logs vlogs useBloom key rest
      else do
        match ← table.sst.getNoBloom key with
        | none => getTables logs vlogs useBloom key rest
        | some rec =>
            if rec.op = Op.delete then return none
            else if rec.separated then do
              let value ← readPtr logs vlogs rec.vptr
              return some value
            else return some rec.value

def Lookup.finish (logs : List ValueLog) (key : Bytes) : Lookup → Except Error (Option Bytes)
  | .answered value => .ok value
  | .search tables vlogs useBloom => getTables logs vlogs useBloom key tables

def DB.get (db : DB) (key : Bytes) : Except Error (Option Bytes) := (getLocked db key).finish db.logs key

-- What scan reads for the winning record of a key.
def scanEmit (logs : List ValueLog) (vlogs : List (UInt32 × Nat)) (rec : Record) :
    Except Error (Option (Bytes × Bytes)) :=
  if rec.op = Op.put then do
    let value ← if rec.separated then readPtr logs vlogs rec.vptr else .ok rec.value
    return some (rec.key, value)
  else .ok none

def memSources (db : DB) (start stop : Bytes) : List (List Record) :=
  [db.memtable.range start stop] ++ if db.hasFlushing then [db.flushingMemtable.range start stop] else []

def DB.scan (db : DB) (start stop : Bytes) : Except Error (List (Bytes × Bytes)) := do
  let ranges ← db.sstables.mapM (fun table => table.sst.range start stop)
  let sources := memSources db start stop ++ ranges
  kwayMerge Record.key List.head? (fun source => .ok source.tail) (scanEmit db.logs db.vlogs) (rowCount sources) sources

-- What a record says about its key: a deletion, or a value that is stored
-- inline or read through the value log.
def Means (logs : List ValueLog) (vlogs : List (UInt32 × Nat)) (rec : Record) : Option Bytes → Prop
  | none => rec.op = Op.delete
  | some value =>
      rec.op = Op.put ∧ if rec.separated then readPtr logs vlogs rec.vptr = .ok value else rec.value = value

theorem put_ne_delete : Op.put ≠ Op.delete := by decide

theorem means_put_inline (logs : List ValueLog) (vlogs : List (UInt32 × Nat)) (rec : Record) (put : rec.op = Op.put)
    (inline : rec.separated = false) : Means logs vlogs rec (some rec.value) := by
  simp [Means, put, inline]

-- The runs a lookup goes through, newest first.
def memRuns (db : DB) : List (List Record) :=
  [db.memtable.snapshot] ++ if db.hasFlushing then [db.flushingMemtable.snapshot] else []

def tableRuns (tables : List Table) : List (List Record) := tables.map (fun table => table.sst.records)

theorem mem_runs_cases (db : DB) (run : List Record) (member : run ∈ memRuns db) :
    ∃ table : Memtable, run = table.snapshot := by
  rw [memRuns] at member
  rcases List.mem_append.mp member with active | flushing
  · exact ⟨db.memtable, List.mem_singleton.mp active⟩
  · split at flushing
    · exact ⟨db.flushingMemtable, List.mem_singleton.mp flushing⟩
    · cases flushing

-- What get makes of the first record it finds.
def answer (logs : List ValueLog) (vlogs : List (UInt32 × Nat)) : Option Record → Except Error (Option Bytes)
  | none => .ok none
  | some rec =>
      if rec.op = Op.delete then .ok none
      else if rec.separated then (readPtr logs vlogs rec.vptr).map some
      else .ok (some rec.value)

theorem means_answer (logs : List ValueLog) (vlogs : List (UInt32 × Nat)) (rec : Record) (value : Option Bytes)
    (means : Means logs vlogs rec value) : answer logs vlogs (some rec) = .ok value := by
  cases value with
  | none =>
      have gone : rec.op = Op.delete := means
      rw [answer, if_pos gone]
  | some v =>
      obtain ⟨put, stored⟩ := means
      rw [answer, if_neg (by rw [put]; exact put_ne_delete)]
      by_cases separated : rec.separated = true
      · rw [if_pos separated] at stored
        rw [if_pos separated, stored]
        rfl
      · rw [if_neg separated] at stored
        rw [if_neg separated, stored]

theorem get_tables_reads (logs : List ValueLog) (vlogs : List (UInt32 × Nat)) (useBloom : Bool) (key : Bytes)
    (tables : List Table) (formed : ∀ table ∈ tables, table.sst.WellFormed) :
    getTables logs vlogs useBloom key tables = answer logs vlogs (firstMatch Record.key key (tableRuns tables)) := by
  induction tables with
  | nil => rfl
  | cons table rest ih =>
      have here := formed table (by simp)
      have later := ih (fun other member => formed other (by simp [member]))
      rw [tableRuns, List.map_cons, first_match_cons]
      cases hit : findKey Record.key key table.sst.records with
      | none =>
          rw [Option.none_or, getTables, later, get_no_bloom_find _ _ here, hit]
          split <;> rfl
      | some top =>
          obtain ⟨member, sameKey⟩ := find_key_some Record.key key _ top hit
          have maybe : table.sst.mayContain key = true := by
            rw [← sameKey]
            exact here.bloom top member
          rw [Option.some_or, getTables, maybe, get_no_bloom_find _ _ here, hit, answer]
          simp only [Bool.not_true, Bool.and_false, Bool.false_eq_true, if_false, bind, Except.bind]
          cases readPtr logs vlogs top.vptr <;> rfl

theorem mem_snapshot_find (table : Memtable) (key : Bytes) :
    findKey Record.key key table.snapshot = (table.entries.find key).map (fun entry => entryRecord (key, entry)) := by
  rw [Memtable.snapshot, find_entry_record, OrdMap.find]
  cases hit : findKey Prod.fst key table.entries.entries with
  | none => rfl
  | some entry =>
      obtain ⟨_, sameKey⟩ := find_key_some Prod.fst key _ entry hit
      subst sameKey
      rfl

theorem mem_lookup (table : Memtable) (key : Bytes) :
    (findKey Record.key key table.snapshot = none ∧ table.get key = none ∧ table.isTombstone key = false) ∨
      ∃ rec, findKey Record.key key table.snapshot = some rec ∧
        ((table.get key = none ∧ table.isTombstone key = true ∧ rec.op = Op.delete) ∨
          (table.get key = some rec.value ∧ rec.op = Op.put ∧ rec.separated = false)) := by
  rw [mem_snapshot_find, Memtable.get, Memtable.isTombstone]
  cases table.entries.find key with
  | none => exact .inl ⟨rfl, rfl, rfl⟩
  | some entry =>
      refine .inr ⟨_, rfl, ?_⟩
      cases dead : entry.tombstone with
      | true => exact .inl ⟨by simp [dead], by simp [dead], by simp [entryRecord, dead]⟩
      | false => exact .inr ⟨by simp [dead, entryRecord], by simp [entryRecord, dead], by simp [entryRecord]⟩

def lookupRuns (db : DB) : List (List Record) := memRuns db ++ tableRuns db.sstables

-- A lookup answers with the first record of its key, newest run first; the
-- value logs may have moved on since the snapshot.
theorem lookup_reads (db : DB) (logs : List ValueLog) (key : Bytes)
    (formed : ∀ table ∈ db.sstables, table.sst.WellFormed) :
    (getLocked db key).finish logs key = answer logs db.vlogs (firstMatch Record.key key (lookupRuns db)) := by
  have tables := get_tables_reads logs db.vlogs db.bloomEnabled key db.sstables formed
  have inline : ∀ rec : Record, rec.op = Op.put → rec.separated = false →
      answer logs db.vlogs (some rec) = .ok (some rec.value) := fun rec put inside =>
    means_answer logs db.vlogs rec _ (means_put_inline logs db.vlogs rec put inside)
  rw [lookupRuns, memRuns, List.append_assoc, List.singleton_append, first_match_cons, getLocked]
  rcases mem_lookup db.memtable key with ⟨missing, noValue, noTomb⟩ | ⟨top, hit, dead | live⟩
  · rw [noValue, noTomb, missing, Option.none_or]
    simp only [Bool.false_eq_true, if_false]
    cases flushing : db.hasFlushing with
    | false => exact tables
    | true =>
        rw [if_pos rfl, if_pos rfl, List.singleton_append, first_match_cons]
        rcases mem_lookup db.flushingMemtable key with ⟨gone, noFlush, noMark⟩ | ⟨top, hit, dead | live⟩
        · rw [noFlush, noMark, gone, Option.none_or]
          exact tables
        · rw [dead.1, dead.2.1, hit, Option.some_or, means_answer logs db.vlogs top none dead.2.2]
          rfl
        · rw [live.1, hit, Option.some_or, inline top live.2.1 live.2.2]
          rfl
  · rw [dead.1, dead.2.1, hit, Option.some_or, means_answer logs db.vlogs top none dead.2.2]
    rfl
  · rw [live.1, hit, Option.some_or, inline top live.2.1 live.2.2]
    rfl

theorem lookup_found (db : DB) (logs : List ValueLog) (key : Bytes)
    (formed : ∀ table ∈ db.sstables, table.sst.WellFormed) (rec : Record) (value : Option Bytes)
    (found : firstMatch Record.key key (lookupRuns db) = some rec) (means : Means logs db.vlogs rec value) :
    (getLocked db key).finish logs key = .ok value := by
  rw [lookup_reads db logs key formed, found, means_answer logs db.vlogs rec value means]

theorem lookup_absent (db : DB) (logs : List ValueLog) (key : Bytes)
    (formed : ∀ table ∈ db.sstables, table.sst.WellFormed) (absent : firstMatch Record.key key (lookupRuns db) = none) :
    (getLocked db key).finish logs key = .ok none := by
  rw [lookup_reads db logs key formed, absent]
  rfl

-- A table as some flush or merge has left it: built by SSTable::build and opened.
def Built (sst : SSTable) : Prop :=
  ∃ sizing records file, (∀ rec ∈ records, ValidOp rec) ∧ buildTable sizing records = .ok file ∧
    openTable file = .ok sst

theorem built_no_bloom (sst : SSTable) (built : Built sst) (key : Bytes) (excluded : sst.mayContain key = false) :
    sst.getNoBloom key = .ok none := by
  obtain ⟨sizing, records, file, ops, made, opened⟩ := built
  obtain ⟨_, table, blocks, again, laid⟩ := open_stored_blocks sizing records file ops made
  rw [opened] at again
  cases again
  exact laid_get_no_bloom sst _ blocks laid key excluded

theorem get_tables_bloom (logs : List ValueLog) (vlogs : List (UInt32 × Nat)) (key : Bytes) (tables : List Table)
    (built : ∀ table ∈ tables, Built table.sst) :
    getTables logs vlogs true key tables = getTables logs vlogs false key tables := by
  induction tables with
  | nil => rfl
  | cons table rest ih =>
      have later := ih (fun other member => built other (by simp [member]))
      rw [getTables, getTables, later]
      cases maybe : table.sst.mayContain key with
      | true => simp
      | false =>
          have none := built_no_bloom table.sst (built table (by simp)) key maybe
          simp [none, bind, Except.bind]

-- The filter only ever saves reads.
theorem bloom_never_hides :
    (∀ (filter : BloomFilter) (keys : List Bytes), filter.WellSized →
      BloomFilter.deserialize (keys.foldl BloomFilter.add filter).serialize = .ok (keys.foldl BloomFilter.add filter) ∧
        ∀ key ∈ keys, (keys.foldl BloomFilter.add filter).maybeContains key = true) ∧
    (∀ (sst : SSTable) (key : Bytes), Built sst → sst.get key = sst.getNoBloom key) ∧
    ∀ (db : DB) (key : Bytes), (∀ table ∈ db.sstables, Built table.sst) →
      { db with bloomEnabled := true }.get key = { db with bloomEnabled := false }.get key := by
  refine ⟨fun filter keys well => ?_, fun sst key built => ?_, fun db key built => ?_⟩
  · obtain ⟨kept, contains⟩ := add_all_contains filter well keys
    exact ⟨deserialize_serialize _ kept, fun key member => contains key (.inl member)⟩
  · rw [SSTable.get]
    by_cases maybe : sst.mayContain key = true
    · rw [if_pos maybe]
    · rw [if_neg maybe, built_no_bloom sst built key (by simpa using maybe)]
  · have tables := get_tables_bloom db.logs db.vlogs key db.sstables built
    simp only [DB.get, getLocked]
    split
    · rfl
    · split
      · rfl
      · split
        · split
          · rfl
          · split
            · rfl
            · exact tables
        · exact tables

theorem bloom_never_hides_two : ∃ sst : SSTable, Built sst ∧ sst.get [2] = sst.getNoBloom [2] := by
  obtain ⟨file, made⟩ := two_rows_built
  obtain ⟨sst, opened, _⟩ := open_built_table smallBloom twoRows file two_rows_ascending two_rows_storable made
  have built : Built sst :=
    ⟨smallBloom, twoRows, file, fun rec member => (two_rows_storable rec member).op, made, opened⟩
  exact ⟨sst, built, bloom_never_hides.2.1 sst [2] built⟩

end Tombstash
