import Tombstash.Store
import Tombstash.Recover

set_option autoImplicit false

namespace Tombstash

variable {serial : Prop}

-- Tables, newest first, that hold what a history has written.
def TablesHold (log : ValueLog) (done : List Write) (ssts : List SSTable) : Prop :=
  ∃ layers, Faithful done layers ∧ List.Forall₂ (fun layer sst => Stamped log done layer sst.records) layers ssts

theorem hist_tables (db : DB) (log : ValueLog) (done sealed active : List Write) (stamp : Nat → Layer Bytes)
    (hist : Hist db log done sealed active stamp) : TablesHold log done (db.sstables.map Table.sst) := by
  refine ⟨layersOf stamp db.sstables, hist.faithful, ?_⟩
  rw [layersOf, List.forall₂_map_left_iff, List.forall₂_map_right_iff, List.forall₂_same]
  exact hist.stamped

theorem tables_hold_grows (log later : ValueLog) (done : List Write) (ssts : List SSTable) (grows : Grows log later)
    (holds : TablesHold log done ssts) : TablesHold later done ssts := by
  obtain ⟨layers, faithful, stamped⟩ := holds
  exact ⟨layers, faithful, stamped.imp (fun layer sst answers => answers_grows log later done layer _ grows answers)⟩

theorem tables_from_place (entries : List ManifestEntry) (ssts : List SSTable) (same : entries.length = ssts.length)
    (n : Nat) (table : Table) (here : (tablesFrom 0 entries ssts)[n]? = some table) :
    table.id = n ∧ ssts[n]? = some table.sst := by
  obtain ⟨tables, _, ids⟩ := tables_from_fields 0 entries ssts same
  refine ⟨?_, ?_⟩
  · have there : (tableIds (tablesFrom 0 entries ssts))[n]? = some table.id := by
      rw [tableIds, List.getElem?_map, here]
      rfl
    have bound : n < entries.length := by
      have length := congrArg List.length ids
      have inside := (List.getElem?_eq_some_iff.mp here).1
      simp only [tableIds, List.length_map, List.length_range'] at length
      omega
    rw [ids, List.getElem?_range' bound] at there
    simpa using there.symm
  · rw [← tables, List.getElem?_map, here]
    rfl

section Loaded

variable (m : ManifestData) (ssts : List SSTable) (file : Bytes) (replayed done : List Write)

-- The layers of the tables, found again by their new numbers.
def placeStamp (layers : List (Layer Bytes)) (n : Nat) : Layer Bytes := layers.getD n (fun _ => none)

theorem place_layers (layers : List (Layer Bytes)) (entries : List ManifestEntry) (same : entries.length = ssts.length)
    (count : layers.length = ssts.length) : layersOf (placeStamp layers) (tablesFrom 0 entries ssts) = layers := by
  obtain ⟨_, _, ids⟩ := tables_from_fields 0 entries ssts same
  have byId : layersOf (placeStamp layers) (tablesFrom 0 entries ssts) =
      (tableIds (tablesFrom 0 entries ssts)).map (placeStamp layers) := by simp [layersOf, tableIds]
  rw [byId, ids]
  refine List.ext_getElem (by simp [same, count]) (fun n inside there => ?_)
  simp [placeStamp, there]

theorem loaded_hist (same : m.tables.length = ssts.length)
    (holds : TablesHold (ValueLog.opened (vlogName m.currentGen) m.currentGen file) done ssts) :
    ∃ stamp, Hist (loadedDb m ssts file replayed)
    (ValueLog.opened (vlogName m.currentGen) m.currentGen file) done [] replayed
      stamp := by
  obtain ⟨layers, faithful, stamped⟩ := holds
  refine ⟨placeStamp layers, rfl, rfl, fun _ => rfl, ?_, fun table member => ?_⟩
  · have placed := place_layers ssts layers m.tables same stamped.length_eq
    rw [← placed] at faithful
    exact faithful
  · obtain ⟨n, inside, here⟩ := List.getElem_of_mem member
    obtain ⟨number, sst⟩ := tables_from_place m.tables ssts same n table (List.getElem?_eq_some_iff.mpr ⟨inside, here⟩)
    obtain ⟨bound, atPlace⟩ := List.getElem?_eq_some_iff.mp sst
    have layer := stamped.get (by rw [stamped.length_eq]; exact bound) bound
    have inLayers : n < layers.length := by rw [stamped.length_eq]; exact bound
    rw [number, placeStamp, List.getD_eq_getElem?_getD, List.getElem?_eq_getElem inLayers]
    simpa [atPlace] using layer

end Loaded

theorem loaded_order (db : DB) (seq : Nat) (file : Bytes) (replayed : List Write) (order : LevelOrder db.sstables) :
    LevelOrder (loadedDb (manifestAt seq db) (db.sstables.map Table.sst) file replayed).sstables := by
  have levels := tables_from_map Table.level (fun _ _ => rfl) 0 db.sstables
  have fields := tables_from_map (fun table => { table with id := 0 }) (fun _ _ => rfl) 0 db.sstables
  rcases order with flat | ordered
  · refine .inl (fun table member => ?_)
    have inside : table.level ∈ db.sstables.map Table.level := levels ▸ List.mem_map_of_mem member
    obtain ⟨old, present, same⟩ := List.mem_map.mp inside
    rw [← same, flat old present]
  · -- The leveled order does not look at the numbers.
    have blind : (db.sstables.map (fun table => { table with id := 0 })).Pairwise LevelBefore :=
      List.pairwise_map.mpr ordered
    rw [← fields, List.pairwise_map] at blind
    exact .inr blind

theorem loaded_fits (db : DB) (seq : Nat) (file : Bytes) (replayed : List Write)
    (fits : ∀ table ∈ db.sstables, LevelFits table) :
    ∀ table ∈ (loadedDb (manifestAt seq db) (db.sstables.map Table.sst) file replayed).sstables, LevelFits table := by
  have fields := tables_from_map (fun table => (table.level, table.sst)) (fun _ _ => rfl) 0 db.sstables
  intro table member
  have inside : (table.level, table.sst) ∈ db.sstables.map (fun table => (table.level, table.sst)) :=
    fields ▸ List.mem_map_of_mem member
  obtain ⟨old, present, same⟩ := List.mem_map.mp inside
  obtain ⟨level, sst⟩ := Prod.mk.inj same
  obtain ⟨low, high, filled⟩ := fits old present
  exact ⟨level ▸ low, level ▸ high, fun deep => sst ▸ filled (level ▸ deep)⟩

theorem loaded_arranged (cfg : Config) (m : ManifestData) (ssts : List SSTable) (file : Bytes) (replayed : List Write)
    (fits : ∀ table ∈ (loadedDb m ssts file replayed).sstables, LevelFits table) :
    Arranged cfg (loadedDb m ssts file replayed) :=
  ⟨fits, by simp [inFlight, loadedDb], by simp [inFlight, loadedDb], fun _ _ flushing => by simp [loadedDb] at flushing,
    by simp [inFlight, loadedDb], by simp [inFlight, loadedDb]⟩

end Tombstash
