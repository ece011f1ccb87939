import Tombstash.Record
import Tombstash.Base.OrdMap
import Tombstash.Base.Versions

set_option autoImplicit false

namespace Tombstash

structure MemEntry where
  value : Bytes
  tombstone : Bool
deriving DecidableEq, Repr

structure Memtable where
  entries : OrdMap Bytes MemEntry := OrdMap.empty
  sizeBytes : UInt64 := 0

def entryBytes (key value : Bytes) : UInt64 := UInt64.ofNat (key.length + value.length)

def Memtable.put (table : Memtable) (key value : Bytes) : Memtable :=
  match table.entries.find key with
  | some old =>
      { entries := table.entries.insert key ⟨value, false⟩
        sizeBytes := table.sizeBytes - entryBytes key old.value + entryBytes key value }
  | none =>
      { entries := table.entries.insert key ⟨value, false⟩
        sizeBytes := table.sizeBytes + entryBytes key value }

def Memtable.del (table : Memtable) (key : Bytes) : Memtable :=
  match table.entries.find key with
  | some old =>
      { entries := table.entries.insert key ⟨[], true⟩
        sizeBytes := table.sizeBytes - entryBytes key old.value + UInt64.ofNat key.length }
  | none =>
      { entries := table.entries.insert key ⟨[], true⟩
        sizeBytes := table.sizeBytes + UInt64.ofNat key.length }

def Memtable.get (table : Memtable) (key : Bytes) : Option Bytes :=
  match table.entries.find key with
  | none => none
  | some entry => if entry.tombstone then none else some entry.value

def Memtable.isTombstone (table : Memtable) (key : Bytes) : Bool :=
  match table.entries.find key with
  | none => false
  | some entry => entry.tombstone

def entryRecord (entry : Bytes × MemEntry) : Record :=
  ⟨if entry.2.tombstone then Op.delete else Op.put, entry.1, entry.2.value, false, {}⟩

def Memtable.snapshot (table : Memtable) : List Record := table.entries.entries.map entryRecord

-- for (it = lower_bound(start); it != end() && it->first < end; ++it)
def Memtable.range (table : Memtable) (start stop : Bytes) : List Record :=
  ((table.entries.entries.dropWhile (fun entry => decide (entry.1 < start))).takeWhile
    (fun entry => decide (entry.1 < stop))).map entryRecord

def Memtable.isEmpty (table : Memtable) : Bool := table.entries.entries.isEmpty

-- One client write: a value is a put, none is a del.
abbrev Write := Bytes × Option Bytes

def Memtable.apply (table : Memtable) (write : Write) : Memtable :=
  match write.2 with
  | some value => table.put write.1 value
  | none => table.del write.1

def memOf (writes : List Write) : Memtable := writes.foldl Memtable.apply {}

def writeEntry : Option Bytes → MemEntry
  | some value => ⟨value, false⟩
  | none => ⟨[], true⟩

def writeRecord (write : Write) : Record :=
  match write.2 with
  | some value => ⟨Op.put, write.1, value, false, {}⟩
  | none => ⟨Op.delete, write.1, [], false, {}⟩

theorem apply_entries (table : Memtable) (write : Write) :
    (table.apply write).entries = table.entries.insert write.1 (writeEntry write.2) := by
  obtain ⟨key, value⟩ := write
  cases value with
  | some value =>
      simp only [Memtable.apply, Memtable.put, writeEntry]
      cases table.entries.find key <;> rfl
  | none =>
      simp only [Memtable.apply, Memtable.del, writeEntry]
      cases table.entries.find key <;> rfl

theorem mem_of_find (writes : List Write) (key : Bytes) :
    (memOf writes).entries.find key = (latest writes key).map writeEntry := by
  induction writes using List.reverseRecOn with
  | nil => rfl
  | append_singleton front write ih =>
      have step : memOf (front ++ [write]) = (memOf front).apply write := by simp [memOf]
      rw [step, apply_entries, OrdMap.find_insert, ih, latest_append, latest_singleton]
      by_cases same : write.1 = key <;> simp [same]

theorem mem_of_append (front : List Write) (write : Write) : memOf (front ++ [write]) = (memOf front).apply write := by
  simp [memOf]

theorem mem_of_get (writes : List Write) (key : Bytes) : (memOf writes).get key = valueOf writes key := by
  rw [Memtable.get, mem_of_find, valueOf]
  rcases latest writes key with _ | _ | value <;> simp [writeEntry]

theorem mem_of_tombstone (writes : List Write) (key : Bytes) :
    (memOf writes).isTombstone key = true ↔ latest writes key = some none := by
  rw [Memtable.isTombstone, mem_of_find]
  rcases latest writes key with _ | _ | value <;> simp [writeEntry]

theorem mem_of_is_empty (writes : List Write) : (memOf writes).isEmpty = true ↔ writes = [] := by
  constructor
  · intro empty
    have none : (memOf writes).entries.entries = [] := by simpa [Memtable.isEmpty] using empty
    cases writes with
    | nil => rfl
    | cons write rest =>
        have absent : (memOf (write :: rest)).entries.find write.1 = Option.none := by simp [OrdMap.find, none, findKey]
        rw [mem_of_find, Option.map_eq_none_iff, latest_none] at absent
        exact absurd rfl (absent write (by simp))
  · rintro rfl
    rfl

theorem entry_record_key (entry : Bytes × MemEntry) : (entryRecord entry).key = entry.1 := rfl

theorem snapshot_ascending (table : Memtable) : Ascending Record.key table.snapshot := by
  rw [Ascending, Memtable.snapshot, List.pairwise_map]
  exact table.entries.ascending

theorem find_entry_record (entries : List (Bytes × MemEntry)) (key : Bytes) :
    findKey Record.key key (entries.map entryRecord) = (findKey Prod.fst key entries).map entryRecord := by
  induction entries with
  | nil => rfl
  | cons entry rest ih =>
      rw [List.map_cons, find_key_cons, find_key_cons, entry_record_key, ih]
      by_cases same : entry.1 = key <;> simp [same]

theorem write_entry_record (key : Bytes) (value : Option Bytes) :
    entryRecord (key, writeEntry value) = writeRecord (key, value) := by
  cases value <;> rfl

theorem find_snapshot (writes : List Write) (key : Bytes) :
    findKey Record.key key (memOf writes).snapshot = (latest writes key).map
    (fun value => writeRecord (key, value)) := by
  have found := mem_of_find writes key
  rw [OrdMap.find] at found
  rw [Memtable.snapshot, find_entry_record]
  cases hit : findKey Prod.fst key (memOf writes).entries.entries with
  | none =>
      rw [hit, Option.map_none] at found
      rw [Option.map_eq_none_iff.mp found.symm]
      rfl
  | some entry =>
      obtain ⟨_, keyEq⟩ := find_key_some Prod.fst key _ entry hit
      rw [hit, Option.map_some] at found
      obtain ⟨value, latestEq, entryEq⟩ := Option.map_eq_some_iff.mp found.symm
      have whole : entry = (key, writeEntry value) := Prod.ext keyEq entryEq.symm
      rw [latestEq, Option.map_some, Option.map_some, whole, write_entry_record]

theorem range_is_window (table : Memtable) (start stop : Bytes) :
    table.range start stop =
      table.snapshot.filter (fun record => decide (start ≤ record.key) && decide (record.key < stop)) := by
  rw [Memtable.range, ascending_window Prod.fst _ table.entries.ascending, Memtable.snapshot, List.filter_map]
  rfl

-- What an entry adds to size_bytes_: a tombstone adds its key only.
def entryPayload (key : Bytes) (entry : MemEntry) : Nat :=
  key.length + if entry.tombstone then 0 else entry.value.length

def Memtable.payload (table : Memtable) : Nat := table.entries.total entryPayload

structure Memtable.Accounted (table : Memtable) : Prop where
  size : table.sizeBytes = UInt64.ofNat table.payload
  bare : ∀ key entry, table.entries.find key = some entry → entry.tombstone = true → entry.value = []

theorem entry_bytes_payload (table : Memtable) (accounted : table.Accounted) (key : Bytes) (entry : MemEntry)
    (found : table.entries.find key = some entry) : key.length + entry.value.length = entryPayload key entry := by
  rw [entryPayload]
  by_cases dead : entry.tombstone = true
  · rw [if_pos dead, accounted.bare key entry found dead]
    rfl
  · rw [if_neg dead]

theorem replaced_size (before after old new : Nat) (held : old ≤ before) (moved : after + old = before + new) :
    UInt64.ofNat before - UInt64.ofNat old + UInt64.ofNat new = UInt64.ofNat after := by
  rw [← UInt64.ofNat_sub held, ← UInt64.ofNat_add]
  congr 1
  omega

-- put and del differ in the entry they leave, and both add its payload after
-- taking off what was there.
theorem apply_size (table : Memtable) (write : Write) :
    (table.apply write).sizeBytes = (match table.entries.find write.1 with
      | some old => table.sizeBytes - entryBytes write.1 old.value
      | none => table.sizeBytes) + UInt64.ofNat (entryPayload write.1 (writeEntry write.2)) := by
  obtain ⟨key, value⟩ := write
  cases value with
  | some value =>
      simp only [Memtable.apply, Memtable.put]
      cases table.entries.find key <;> rfl
  | none =>
      simp only [Memtable.apply, Memtable.del]
      cases table.entries.find key <;> rfl

theorem apply_accounted (table : Memtable) (write : Write) (accounted : table.Accounted) :
    (table.apply write).Accounted := by
  constructor
  · rw [apply_size, Memtable.payload, apply_entries, accounted.size, Memtable.payload]
    cases found : table.entries.find write.1 with
    | none => rw [OrdMap.total_insert_new _ _ _ _ found, UInt64.ofNat_add]
    | some old =>
        simp only [entryBytes, entry_bytes_payload table accounted write.1 old found]
        exact replaced_size _ _ _ _ (OrdMap.weight_le_total _ _ _ _ found) (OrdMap.total_insert_old _ _ _ _ _ found)
  · intro key entry found dead
    rw [apply_entries, OrdMap.find_insert] at found
    split at found
    · cases found
      cases value : write.2 with
      | some bytes =>
          rw [value] at dead
          cases dead
      | none => rfl
    · exact accounted.bare key entry found dead

theorem mem_of_accounted (writes : List Write) : (memOf writes).Accounted := by
  induction writes using List.reverseRecOn with
  | nil => exact ⟨rfl, fun key entry found => by cases found⟩
  | append_singleton front write ih =>
      rw [mem_of_append]
      exact apply_accounted _ write ih

theorem size_bytes_exact (writes : List Write) (bounded : (memOf writes).payload < 2 ^ 64) :
    (memOf writes).sizeBytes.toNat = (memOf writes).payload := by
  rw [(mem_of_accounted writes).size]
  exact UInt64.toNat_ofNat_of_lt' bounded

theorem taken_off_fits (writes : List Write) (bounded : (memOf writes).payload < 2 ^ 64) (key : Bytes) (old : MemEntry)
    (found : (memOf writes).entries.find key = some old) :
    (entryBytes key old.value).toNat = key.length + old.value.length ∧
      entryBytes key old.value ≤ (memOf writes).sizeBytes := by
  have held := OrdMap.weight_le_total _ _ _ entryPayload found
  have same := entry_bytes_payload _ (mem_of_accounted writes) key old found
  have inside : key.length + old.value.length < 2 ^ 64 := by
    rw [same]
    exact lt_of_le_of_lt held bounded
  have bytes : (entryBytes key old.value).toNat = key.length + old.value.length := UInt64.toNat_ofNat_of_lt' inside
  refine ⟨bytes, ?_⟩
  rw [UInt64.le_iff_toNat_le, bytes, size_bytes_exact writes bounded, same]
  exact held

-- The payload is bounded at every point of the sequence, which a bound on all
-- the bytes ever written implies.
theorem memtable_accounting_exact (writes : List Write)
    (bounded : ∀ front, front <+: writes → (memOf front).payload < 2 ^ 64) :
    (memOf writes).sizeBytes.toNat = (memOf writes).payload ∧
    (∀ front write rest old, writes = front ++ write :: rest → (memOf front).entries.find write.1 = some old →
      (entryBytes write.1 old.value).toNat = write.1.length + old.value.length ∧
        entryBytes write.1 old.value ≤ (memOf front).sizeBytes) ∧
    (∀ key entry, (memOf writes).entries.find key = some entry → entry.tombstone = true → entry.value = []) ∧
    Ascending Record.key (memOf writes).snapshot ∧
    ∀ key, findKey Record.key key (memOf writes).snapshot =
      (latest writes key).map (fun value => writeRecord (key, value)) := by
  refine ⟨size_bytes_exact writes (bounded writes (List.prefix_refl writes)), ?_, (mem_of_accounted writes).bare,
    snapshot_ascending _, find_snapshot writes⟩
  intro front write rest old split found
  exact taken_off_fits front (bounded front ⟨write :: rest, split.symm⟩) write.1 old found

def rewrittenKey : List Write := [([0x61], some [1, 2]), ([0x61], none), ([0x62], some []), ([0x61], some [3])]

theorem rewritten_key_accounting :
    (memOf rewrittenKey).sizeBytes.toNat = 3 ∧
      (memOf rewrittenKey).snapshot = [⟨Op.put, [0x61], [3], false, {}⟩, ⟨Op.put, [0x62], [], false, {}⟩] := by
  have bounded : ∀ front, front <+: rewrittenKey → (memOf front).payload < 2 ^ 64 := by
    have cuts : ∀ n < 5, (memOf (rewrittenKey.take n)).payload < 2 ^ 64 := by decide +kernel
    intro front inside
    rw [List.prefix_iff_eq_take.mp inside]
    exact cuts front.length (Nat.lt_succ_of_le inside.length_le)
  have exactly := (memtable_accounting_exact rewrittenKey bounded).1
  have payload : (memOf rewrittenKey).payload = 3 := by decide +kernel
  exact ⟨exactly.trans payload, by decide +kernel⟩

end Tombstash
