import Tombstash.Invariant

set_option autoImplicit false

namespace Tombstash

-- What a record says about its key when its value log is log.
def Denotes (log : ValueLog) (rec : Record) : Option Bytes → Prop
  | none => rec.op = Op.delete
  | some value =>
      rec.op = Op.put ∧ if rec.separated then rec.vptr.gen = log.gen ∧ Points log rec.vptr value else rec.value = value

theorem denotes_grows (log later : ValueLog) (rec : Record) (value : Option Bytes) (grows : Grows log later)
    (denotes : Denotes log rec value) : Denotes later rec value := by
  cases value with
  | none => exact denotes
  | some v =>
      obtain ⟨put, stored⟩ := denotes
      refine ⟨put, ?_⟩
      cases separated : rec.separated with
      | false => simpa [separated] using stored
      | true =>
          rw [separated, if_pos rfl] at stored
          rw [if_pos rfl]
          exact ⟨stored.1.trans grows.gen.symm, points_grow log later _ v grows stored.2⟩

theorem denotes_deleted (log : ValueLog) (rec : Record) (value : Option Bytes) (denotes : Denotes log rec value) :
    rec.op = Op.delete ↔ value = none := by
  cases value with
  | none => exact ⟨fun _ => rfl, fun _ => denotes⟩
  | some v =>
      refine ⟨fun gone => ?_, fun none => by cases none⟩
      exact absurd (denotes.1.symm.trans gone) put_ne_delete

theorem denotes_write (log : ValueLog) (key : Bytes) (value : Option Bytes) :
    Denotes log (writeRecord (key, value)) value := by
  cases value with
  | none => rfl
  | some v => exact ⟨rfl, rfl⟩

theorem denotes_separation (log : ValueLog) (key : Bytes) (value : Option Bytes) (rec : Record)
    (separation : Separation log (writeRecord (key, value)) rec) : Denotes log rec value := by
  rcases separation.stored with same | ⟨separated, _, put, gen, points⟩
  · rw [same]
    exact denotes_write log key value
  · cases value with
    | none => exact absurd put.symm put_ne_delete
    | some v =>
        refine ⟨separation.op.trans put, ?_⟩
        rw [separated, if_pos rfl]
        exact ⟨gen, points⟩

-- A source of records answers for each key with the version of the history
-- that the layer names.
structure Answers (log : ValueLog) (history : List Write) (layer : Layer Bytes) (find : Bytes → Option Record) :
    Prop where
  absent : ∀ key, find key = none → layer key = none
  present : ∀ key rec, find key = some rec →
    ∃ n value, layer key = some n ∧ history[n]? = some (key, value) ∧ Denotes log rec value

abbrev Stamped (log : ValueLog) (history : List Write) (layer : Layer Bytes) (records : List Record) : Prop :=
  Answers log history layer (fun key => findKey Record.key key records)

theorem answers_grows (log later : ValueLog) (history : List Write) (layer : Layer Bytes) (find : Bytes → Option Record)
    (grows : Grows log later) (answers : Answers log history layer find) : Answers later history layer find := by
  refine ⟨answers.absent, fun key rec found => ?_⟩
  obtain ⟨n, value, there, version, denotes⟩ := answers.present key rec found
  exact ⟨n, value, there, version, denotes_grows log later rec value grows denotes⟩

theorem answers_append (log : ValueLog) (history more : List Write) (layer : Layer Bytes) (find : Bytes → Option Record)
    (answers : Answers log history layer find) : Answers log (history ++ more) layer find := by
  refine ⟨answers.absent, fun key rec found => ?_⟩
  obtain ⟨n, value, there, version, denotes⟩ := answers.present key rec found
  have bound := (List.getElem?_eq_some_iff.mp version).1
  exact ⟨n, value, there, by rwa [List.getElem?_append_left bound], denotes⟩

theorem answers_holds (log : ValueLog) (history : List Write) (layer : Layer Bytes) (find : Bytes → Option Record)
    (answers : Answers log history layer find) (key : Bytes) (n : Nat) (there : layer key = some n) :
    ∃ rec, find key = some rec := by
  cases found : find key with
  | some rec => exact ⟨rec, rfl⟩
  | none =>
      rw [answers.absent key found] at there
      cases there

def layersOf (stamp : Nat → Layer Bytes) (tables : List Table) : List (Layer Bytes) :=
  tables.map (fun table => stamp table.id)

theorem answers_tables (log : ValueLog) (history : List Write) (stamp : Nat → Layer Bytes) (tables : List Table)
    (stamped : ∀ table ∈ tables, Stamped log history (stamp table.id) table.sst.records) :
    Answers log history (firstLayer (layersOf stamp tables))
    (fun key => firstMatch Record.key key (tableRuns tables)) := by
  induction tables with
  | nil => exact ⟨fun _ _ => rfl, fun _ _ found => by cases found⟩
  | cons table rest ih =>
      obtain ⟨here, others⟩ := List.forall_mem_cons.mp stamped
      have later := ih others
      have layers : ∀ key, firstLayer (layersOf stamp (table :: rest)) key =
          (stamp table.id key).or (firstLayer (layersOf stamp rest) key) := by
        intro key
        rw [firstLayer, layersOf, List.map_cons, List.findSome?_cons]
        cases stamp table.id key <;> rfl
      have runs : ∀ key, firstMatch Record.key key (tableRuns (table :: rest)) =
          (findKey Record.key key table.sst.records).or (firstMatch Record.key key (tableRuns rest)) := fun key =>
        first_match_cons Record.key key _ _
      refine ⟨fun key none => ?_, fun key rec found => ?_⟩
      · rw [runs, Option.or_eq_none_iff] at none
        rw [layers, here.absent key none.1, later.absent key none.2]
        rfl
      · rw [runs] at found
        cases hit : findKey Record.key key table.sst.records with
        | some top =>
            rw [hit, Option.some_or, Option.some.injEq] at found
            obtain ⟨n, value, there, version, denotes⟩ := here.present key top hit
            exact ⟨n, value, by rw [layers, there]; rfl, version, found ▸ denotes⟩
        | none =>
            rw [hit, Option.none_or] at found
            obtain ⟨n, value, there, version, denotes⟩ := later.present key rec found
            exact ⟨n, value, by rw [layers, here.absent key hit, there]; rfl, version, denotes⟩

-- The layer of the keys that a smaller source still holds.
def restrict (layer : Layer Bytes) (find : Bytes → Option Record) : Layer Bytes := fun key =>
  if (find key).isSome then layer key else none

theorem answers_restrict (log : ValueLog) (history : List Write) (layer : Layer Bytes)
    (find smaller : Bytes → Option Record) (answers : Answers log history layer find)
    (sub : ∀ key rec, smaller key = some rec → find key = some rec) :
    Answers log history (restrict layer smaller) smaller := by
  refine ⟨fun key none => by simp [restrict, none], fun key rec found => ?_⟩
  obtain ⟨n, value, there, version, denotes⟩ := answers.present key rec (sub key rec found)
  exact ⟨n, value, by simp [restrict, found, there], version, denotes⟩

theorem filter_merges (log : ValueLog) (history : List Write) (layers : List (Layer Bytes))
    (find : Bytes → Option Record) (drop : Bool) (answers : Answers log history (firstLayer layers) find) :
    MergesTo history drop layers (restrict (firstLayer layers) (fun key => (find key).filter (keptBy drop))) := by
  intro key n
  cases found : find key with
  | none => simp [restrict, found, answers.absent key found]
  | some rec =>
      obtain ⟨m, value, there, version, denotes⟩ := answers.present key rec found
      have deleted := denotes_deleted log rec value denotes
      have kept : keptBy drop rec = true ↔ ¬ (drop = true ∧ value = none) := by
        rw [← deleted]
        cases drop <;> simp [keptBy]
      simp only [restrict, found, Option.filter_some]
      by_cases keep : keptBy drop rec = true
      · rw [if_pos keep]
        simp only [Option.isSome_some, if_true, there, Option.some.injEq]
        refine ⟨fun same => ⟨same, ?_⟩, fun both => both.1⟩
        rw [← same, version]
        simpa using kept.mp keep
      · rw [if_neg keep]
        have gone : drop = true ∧ value = none := by
          by_contra no
          exact keep (kept.mpr no)
        refine ⟨fun found => by simp at found, fun both => absurd ⟨gone.1, ?_⟩ both.2⟩
        have same : m = n := Option.some.inj (there.symm.trans both.1)
        rw [← same, version, gone.2]

theorem answers_batch (log : ValueLog) (history batch : List Write) (records : List Record)
    (separations : List.Forall₂ (Separation log) (memOf batch).snapshot records) :
    Stamped log (history ++ batch) (batchLayer history.length batch) records := by
  refine ⟨fun key none => ?_, fun key rec found => ?_⟩
  · rcases find_key_related Record.key _ _ records separations (fun _ _ separation => separation.key) key with
      ⟨missing, _⟩ | ⟨_, _, _, hit, _⟩
    · rw [find_snapshot, Option.map_eq_none_iff] at missing
      cases layer : batchLayer history.length batch key with
      | none => rfl
      | some n =>
          obtain ⟨_, ⟨value, present⟩, _⟩ := (batch_layer_spec history.length batch key n).mp layer
          exact absurd rfl ((latest_none batch key).mp missing (key, value) (List.mem_of_getElem? present))
    · rw [show findKey Record.key key records = Option.none from none] at hit
      cases hit
  · rcases find_key_related Record.key _ _ records separations (fun _ _ separation => separation.key) key with
      ⟨_, missing⟩ | ⟨original, stored, atSnapshot, hit, separation⟩
    · rw [show findKey Record.key key records = some rec from found] at missing
      cases missing
    · rw [show findKey Record.key key records = some rec from found] at hit
      cases hit
      rw [find_snapshot] at atSnapshot
      obtain ⟨value, last, rfl⟩ := Option.map_eq_some_iff.mp atSnapshot
      rcases latest_spec batch key with ⟨absent, _⟩ | ⟨n, other, newest, version, same⟩
      · rw [absent] at last
        cases last
      · rw [same] at last
        cases last
        refine ⟨history.length + n, value, ?_, ?_, denotes_separation log key value rec separation⟩
        · refine (batch_layer_spec history.length batch key _).mpr ⟨by omega, ?_⟩
          rw [Nat.add_sub_cancel_left]
          exact newest
        · rw [List.getElem?_append_right (by omega), Nat.add_sub_cancel_left]
          exact version

theorem denotes_relocation (logs : List ValueLog) (vlogs : List (UInt32 × Nat)) (log later : ValueLog)
    (original rec : Record) (value : Option Bytes) (object : lookupLog logs vlogs log.gen = some log)
    (small : log.file.length < offMax) (relocation : Relocation logs vlogs later original rec)
    (denotes : Denotes log original value) :
    Denotes later rec value := by
  cases value with
  | none => exact relocation.op.trans denotes
  | some v =>
      obtain ⟨put, stored⟩ := denotes
      refine ⟨relocation.op.trans put, ?_⟩
      cases separated : original.separated with
      | false =>
          rw [separated, if_neg (by simp)] at stored
          rw [relocation.separated, separated, if_neg (by simp), relocation.value]
          exact stored
      | true =>
          rw [separated, if_pos rfl] at stored
          rw [relocation.separated, separated, if_pos rfl]
          obtain ⟨moved, reads, gen, points⟩ := relocation.moved separated
          rw [readPtr, stored.1, object] at reads
          simp only [points_read log original.vptr v small stored.2] at reads
          cases reads
          exact ⟨gen, points⟩

theorem answers_relocated (logs : List ValueLog) (vlogs : List (UInt32 × Nat)) (log later : ValueLog)
    (history : List Write) (layer : Layer Bytes) (originals records : List Record)
    (object : lookupLog logs vlogs log.gen = some log) (small : log.file.length < offMax)
    (relocations : List.Forall₂ (Relocation logs vlogs later) originals records)
    (stamped : Stamped log history layer originals) : Stamped later history layer records := by
  have related := find_key_related Record.key _ originals records relocations (fun _ _ relocation => relocation.key)
  refine ⟨fun key none => ?_, fun key rec found => ?_⟩
  · rcases related key with ⟨missing, _⟩ | ⟨_, _, _, hit, _⟩
    · exact stamped.absent key missing
    · rw [show findKey Record.key key records = Option.none from none] at hit
      cases hit
  · rcases related key with ⟨_, missing⟩ | ⟨original, stored, atOriginals, hit, relocation⟩
    · rw [show findKey Record.key key records = some rec from found] at missing
      cases missing
    · rw [show findKey Record.key key records = some rec from found] at hit
      cases hit
      obtain ⟨n, value, there, version, denotes⟩ := stamped.present key original atOriginals
      exact ⟨n, value, there, version, denotes_relocation logs vlogs log later original rec value object small
        relocation denotes⟩

-- The store as layers over the history: the writes in tables, those in the
-- sealed memtable and those in the active one, oldest first.
structure Hist (db : DB) (log : ValueLog) (done sealed active : List Write) (stamp : Nat → Layer Bytes) : Prop where
  memtable : db.memtable = memOf active
  flushing : db.flushingMemtable = memOf sealed
  free : db.hasFlushing = false → sealed = []
  faithful : Faithful done (layersOf stamp db.sstables)
  stamped : ∀ table ∈ db.sstables, Stamped log done (stamp table.id) table.sst.records

theorem denotes_means (logs : List ValueLog) (vlogs : List (UInt32 × Nat)) (log : ValueLog) (rec : Record)
    (value : Option Bytes) (object : ∃ later, lookupLog logs vlogs log.gen = some later ∧ Grows log later ∧
      later.file.length < offMax) (denotes : Denotes log rec value) : Means logs vlogs rec value := by
  obtain ⟨later, found, grows, small⟩ := object
  cases value with
  | none => exact denotes
  | some v =>
      obtain ⟨put, stored⟩ := denotes
      refine ⟨put, ?_⟩
      cases separated : rec.separated with
      | false => simpa [separated] using stored
      | true =>
          rw [separated, if_pos rfl] at stored
          rw [if_pos rfl, readPtr, stored.1, found]
          exact points_read later rec.vptr v small (points_grow log later _ v grows stored.2)

theorem mem_first (runs : List (List Record)) (writes : List Write) (key : Bytes) :
    firstMatch Record.key key ((memOf writes).snapshot :: runs) =
      ((latest writes key).map (fun value => writeRecord (key, value))).or (firstMatch Record.key key runs) := by
  rw [first_match_cons, find_snapshot]

theorem get_correct (db : DB) (i : Nat) (log : ValueLog) (done sealed active : List Write) (stamp : Nat → Layer Bytes)
    (logs : List ValueLog) (key : Bytes) (sound : Sound True db i log) (hist : Hist db log done sealed active stamp)
    (grows : LogsGrow db.logs logs) (small : ∀ later ∈ logs, later.file.length < offMax) :
    (getLocked db key).finish logs key = .ok (valueOf (done ++ sealed ++ active) key) := by
  obtain ⟨later, present, grown⟩ := grows i log sound.object
  have object : ∃ later, lookupLog logs db.vlogs log.gen = some later ∧ Grows log later ∧
    later.file.length < offMax := by
    refine ⟨later, ?_, grown, small later (List.mem_of_getElem? present)⟩
    rw [lookupLog, sound.gen, (sound_index db i log sound).1, Option.bind_some, present]
  have means := fun rec value => denotes_means logs db.vlogs log rec value object
  have runs : ∀ key, firstMatch Record.key key (lookupRuns db) =
      ((latest (sealed ++ active) key).map (fun value => writeRecord (key, value))).or
        (firstMatch Record.key key (tableRuns db.sstables)) := by
    intro key
    rw [lookupRuns, memRuns, hist.memtable, List.append_assoc, List.singleton_append, mem_first, latest_append]
    cases flushing : db.hasFlushing with
    | false =>
        rw [hist.free flushing]
        cases latest active key <;> rfl
    | true =>
        rw [if_pos rfl, hist.flushing, List.singleton_append, mem_first]
        cases latest active key <;> rfl
  have whole : latest (done ++ sealed ++ active) key = (latest (sealed ++ active) key).or (latest done key) := by
    rw [List.append_assoc, latest_append]
  cases recent : latest (sealed ++ active) key with
  | some value =>
      have found : firstMatch Record.key key (lookupRuns db) = some (writeRecord (key, value)) := by
        rw [runs, recent]
        rfl
      rw [lookup_found db logs key sound.formed _ value found (means _ value (denotes_write log key value)),
        valueOf, whole, recent]
      rfl
  | none =>
      have older : valueOf (done ++ sealed ++ active) key = valueOf done key := by
        rw [valueOf, whole, recent]
        rfl
      have tables := answers_tables log done stamp db.sstables hist.stamped
      rw [older]
      cases hit : firstMatch Record.key key (tableRuns db.sstables) with
      | none =>
          have absent : firstMatch Record.key key (lookupRuns db) = none := by
            rw [runs, recent, hit]
            rfl
          rw [lookup_absent db logs key sound.formed absent,
            faithful_absent done _ hist.faithful key (tables.absent key hit)]
      | some rec =>
          have found : firstMatch Record.key key (lookupRuns db) = some rec := by
            rw [runs, recent, hit]
            rfl
          obtain ⟨n, value, there, version, denotes⟩ := tables.present key rec hit
          rw [lookup_found db logs key sound.formed rec value found (means rec value denotes),
            newest_value done key n value (faithful_first done _ hist.faithful key n there) version]

end Tombstash
