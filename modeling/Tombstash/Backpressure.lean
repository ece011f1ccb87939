import Tombstash.Interleave

set_option autoImplicit false

namespace Tombstash

-- The bytes that a write brings into memory.
def writeSize (write : Write) : Nat := write.1.length + (write.2.getD []).length

theorem write_payload (write : Write) : entryPayload write.1 (writeEntry write.2) = writeSize write := by
  obtain ⟨key, value⟩ := write
  cases value <;> rfl

theorem apply_payload (table : Memtable) (write : Write) :
    (table.apply write).payload ≤ table.payload + writeSize write := by
  rw [Memtable.payload, Memtable.payload, apply_entries, ← write_payload]
  cases found : table.entries.find write.1 with
  | none => exact Nat.le_of_eq (OrdMap.total_insert_new _ _ _ _ found)
  | some old =>
      have moved := OrdMap.total_insert_old table.entries write.1 (writeEntry write.2) old entryPayload found
      omega

theorem empty_payload (table : Memtable) (empty : table.isEmpty = true) : table.payload = 0 := by
  have none : table.entries.entries = [] := by simpa [Memtable.isEmpty] using empty
  simp [Memtable.payload, OrdMap.total, none]

-- Memory under writes of at most M bytes with at most W writers in the wait of
-- maybe_seal: a memtable that has reached the threshold grows by one write for
-- each of them.
structure Pressed (cfg : Config) (M W : Nat) (db : DB) : Prop where
  counted : db.memtable.Accounted
  active : db.memtable.payload ≤ cfg.threshold - 1 + M * db.sealWaiters
  full : cfg.threshold ≤ db.memtable.payload → db.memtable.isEmpty = false → 0 < db.sealWaiters
  sealed : db.flushingMemtable.payload ≤ cfg.threshold - 1 + M * (W + 1)

theorem emptied_pressed (cfg : Config) (M W : Nat) (db : DB) (memtable : db.memtable = {})
    (sealed : db.flushingMemtable.payload ≤ cfg.threshold - 1 + M * (W + 1)) : Pressed cfg M W db := by
  refine ⟨?_, ?_, fun _ filled => ?_, sealed⟩
  · rw [memtable]
    exact mem_of_accounted []
  · rw [memtable, empty_payload {} rfl]
    exact Nat.zero_le _
  · rw [memtable] at filled
    cases filled

theorem same_pressed (cfg : Config) (M W : Nat) (db next : DB) (pressed : Pressed cfg M W db)
    (memtable : next.memtable = db.memtable) (waiters : next.sealWaiters = db.sealWaiters)
    (sealed : next.flushingMemtable = db.flushingMemtable ∨ next.flushingMemtable = {}) : Pressed cfg M W next := by
  refine ⟨memtable ▸ pressed.counted, ?_, ?_, ?_⟩
  · rw [memtable, waiters]
    exact pressed.active
  · rw [memtable, waiters]
    exact pressed.full
  · rcases sealed with same | dropped
    · rw [same]
      exact pressed.sealed
    · rw [dropped, empty_payload {} rfl]
      exact Nat.zero_le _

theorem seal_pressed (cfg : Config) (M W : Nat) (db : DB) (counted : db.memtable.Accounted) (low : db.sealWaiters ≤ W)
    (filling : db.memtable.payload ≤ cfg.threshold - 1 + M * (db.sealWaiters + 1))
    (sealed : db.flushingMemtable.payload ≤ cfg.threshold - 1 + M * (W + 1)) : Pressed cfg M W (sealLocked db).1 := by
  rw [sealLocked]
  split
  · next empty =>
      refine ⟨counted, ?_, fun _ filled => ?_, sealed⟩
      · rw [empty_payload db.memtable empty]
        exact Nat.zero_le _
      · rw [empty] at filled
        cases filled
  · have more : M * (db.sealWaiters + 1) ≤ M * (W + 1) := Nat.mul_le_mul_left M (by omega)
    refine emptied_pressed cfg M W _ rfl ?_
    show db.memtable.payload ≤ _
    omega

theorem maybe_seal_pressed (cfg : Config) (M W : Nat) (db : DB) (counted : db.memtable.Accounted)
    (low : db.sealWaiters ≤ W) (filling : db.memtable.payload ≤ cfg.threshold - 1 + M * (db.sealWaiters + 1))
    (sealed : db.flushingMemtable.payload ≤ cfg.threshold - 1 + M * (W + 1))
    (fits : cfg.threshold + M * (W + 1) < 2 ^ 64) :
    Pressed cfg M W (maybeSeal cfg db).1 := by
  have more : M * (db.sealWaiters + 1) ≤ M * (W + 1) := Nat.mul_le_mul_left M (by omega)
  have bound : db.memtable.payload < 2 ^ 64 := by omega
  have exactly : db.memtable.sizeBytes.toNat = db.memtable.payload := by
    rw [counted.size, UInt64.toNat_ofNat_of_lt' bound]
  rw [maybeSeal]
  split
  · next under =>
      rw [exactly] at under
      refine ⟨counted, ?_, fun reached => ?_, sealed⟩
      · show db.memtable.payload ≤ _
        omega
      · exact absurd under (Nat.not_lt.mpr reached)
  · split
    · exact ⟨counted, filling, fun _ _ => Nat.succ_pos _, sealed⟩
    · exact seal_pressed cfg M W db counted low filling sealed

theorem written_pressed (cfg : Config) (M W : Nat) (db next : DB) (write : Write) (sync : Bool) (ops : List DiskOp)
    (pressed : Pressed cfg M W db) (low : db.sealWaiters ≤ W) (small : writeSize write ≤ M)
    (fits : cfg.threshold + M * (W + 1) < 2 ^ 64) (done : applyWrite cfg db write sync = .ok (next, ops)) :
    Pressed cfg M W next := by
  obtain ⟨bytes, _, rfl, _⟩ := apply_write_returns cfg db next write sync ops done
  refine maybe_seal_pressed cfg M W _ (apply_accounted db.memtable write pressed.counted) low ?_ pressed.sealed fits
  have grown := apply_payload db.memtable write
  have bound := pressed.active
  show (db.memtable.apply write).payload ≤ _ + M * (db.sealWaiters + 1)
  rw [Nat.mul_succ]
  omega

theorem flushed_pressed (cfg : Config) (M W : Nat) (db next : DB) (ops : List DiskOp) (pressed : Pressed cfg M W db)
    (done : flushLocked cfg db = .ok (next, ops)) : Pressed cfg M W next := by
  rcases flush_returns cfg db next ops done with
    ⟨_, rfl, _⟩ | ⟨i, log, later, recs, vlogOps, bytes, sst, _, _, _, _, _, rfl, _⟩
  · exact pressed
  · exact emptied_pressed cfg M W _ rfl pressed.sealed

theorem collected_pressed (cfg : Config) (M W : Nat) (db : DB) (existing : Bytes) (effect : Effect)
    (pressed : Pressed cfg M W db) (done : gcValueLog cfg db existing = .ok effect) : Pressed cfg M W effect.db := by
  obtain ⟨flushed, flushOps, flush,
    ⟨_, rfl⟩ | ⟨_, merged, opened, later, relocated, ops, bytes, sst, _, _, _, _, rfl⟩⟩ :=
    gc_returns cfg db existing effect done
  · exact flushed_pressed cfg M W db flushed flushOps pressed flush
  · exact same_pressed cfg M W flushed _ (flushed_pressed cfg M W db flushed flushOps pressed flush) rfl rfl (.inl rfl)

theorem installed_memory (db : DB) (job : MergeJob) (outputs : List (Bytes × SSTable)) (worker : Worker) :
    (mergeInstall db worker job outputs).db.memtable = db.memtable ∧
      (mergeInstall db worker job outputs).db.sealWaiters = db.sealWaiters ∧
      (mergeInstall db worker job outputs).db.flushingMemtable = db.flushingMemtable := by
  have kept : (installJob db job outputs).memtable = db.memtable ∧
    (installJob db job outputs).sealWaiters = db.sealWaiters ∧
      (installJob db job outputs).flushingMemtable = db.flushingMemtable := by
    obtain ⟨_, _, frame⟩ := install_job_frame db job outputs
    rw [frame]
    exact ⟨rfl, rfl, rfl⟩
  cases worker <;> exact kept

theorem work_memory (cfg : Config) (db : DB) (label : Label) (effect : Effect) (work : Work cfg db label effect) :
    effect.db.memtable = db.memtable ∧ effect.db.sealWaiters = db.sealWaiters ∧
      (effect.db.flushingMemtable = db.flushingMemtable ∨ effect.db.flushingMemtable = {}) := by
  cases work with
  | published job sst running complete => exact ⟨rfl, rfl, .inr rfl⟩
  | picked next job noJob picks =>
      obtain ⟨⟨seq, rfl, _⟩, _⟩ := pick_job_fresh cfg db next job picks
      exact ⟨rfl, rfl, .inl rfl⟩
  | merged worker job next running unmerged merges => cases worker <;> exact ⟨rfl, rfl, .inl rfl⟩
  | mergeIo worker job op rest outputs running building => cases worker <;> exact ⟨rfl, rfl, .inl rfl⟩
  | installed worker job outputs running complete =>
      obtain ⟨memtable, waiters, sealed⟩ := installed_memory db job outputs worker
      exact ⟨memtable, waiters, .inl sealed⟩
  | _ => exact ⟨rfl, rfl, .inl rfl⟩

theorem perform_pressed (cfg : Config) (M W : Nat) (db : DB) (label : Label) (effect : Effect)
    (pressed : Pressed cfg M W db) (low : db.sealWaiters ≤ W)
    (small : ∀ write, label.write = some write → writeSize write ≤ M) (fits : cfg.threshold + M * (W + 1) < 2 ^ 64)
    (done : perform cfg db label = some effect) : Pressed cfg M W effect.db := by
  have works : label.works = true → Pressed cfg M W effect.db := by
    intro working
    obtain ⟨memtable, waiters, sealed⟩ :=
      work_memory cfg db label effect (perform_work cfg db effect label working done)
    exact same_pressed cfg M W db effect.db pressed memtable waiters sealed
  cases label with
  | put key value sync =>
      obtain ⟨next, ops, wrote, rfl⟩ := of_except_some _ _ done
      exact written_pressed cfg M W db next _ sync ops pressed low (small _ rfl) fits wrote
  | del key sync =>
      obtain ⟨next, ops, wrote, rfl⟩ := of_except_some _ _ done
      exact written_pressed cfg M W db next _ sync ops pressed low (small _ rfl) fits wrote
  | wakeSeal =>
      simp only [perform] at done
      split at done
      · next ready =>
          cases done
          have same : db.sealWaiters - 1 + 1 = db.sealWaiters := by omega
          refine seal_pressed cfg M W { db with sealWaiters := db.sealWaiters - 1 } pressed.counted ?_ ?_ pressed.sealed
          · show db.sealWaiters - 1 ≤ W
            omega
          · show db.memtable.payload ≤ _ + M * (db.sealWaiters - 1 + 1)
            rw [same]
            exact pressed.active
      · cases done
  | sync =>
      cases done
      exact pressed
  | flush =>
      simp only [perform] at done
      split at done
      · cases done
      · obtain ⟨next, ops, flushed, rfl⟩ := of_except_some _ _ done
        exact flushed_pressed cfg M W db next ops pressed flushed
  | gc existing =>
      simp only [perform] at done
      split at done
      · cases done
      · exact collected_pressed cfg M W db existing effect pressed (to_option_ok _ _ done)
  | setBloomEnabled on =>
      cases done
      exact same_pressed cfg M W db _ pressed rfl rfl (.inl rfl)
  | _ => exact works rfl

theorem run_pressed (cfg : Config) (M W : Nat) (db later : DB) (labels : List Label) (pressed : Pressed cfg M W db)
    (small : ∀ write ∈ applied labels, writeSize write ≤ M)
    (threads : ∀ front middle, front <+: labels → run cfg db front = some middle → middle.sealWaiters ≤ W)
    (fits : cfg.threshold + M * (W + 1) < 2 ^ 64) (done : run cfg db labels = some later) : Pressed cfg M W later := by
  induction labels generalizing db with
  | nil =>
      cases done
      exact pressed
  | cons label rest ih =>
      rw [applied_cons] at small
      obtain ⟨effect, stepped, remaining⟩ := Option.bind_eq_some_iff.mp done
      have low := threads [] db (List.nil_prefix) rfl
      have next := perform_pressed cfg M W db label effect pressed low
        (fun write wrote => small write (List.mem_append_left _ (by rw [wrote]; simp))) fits
        (Option.filter_eq_some_iff.mp stepped).1
      refine ih effect.db next (fun write member => small write (List.mem_append_right _ member))
        (fun front middle inside ran => ?_) remaining
      refine threads (label :: front) middle (List.cons_prefix_cons.mpr ⟨rfl, inside⟩) ?_
      rw [run, stepped, Option.bind_some, ran]

theorem fresh_pressed (cfg : Config) (M W : Nat) : Pressed cfg M W DB.fresh :=
  emptied_pressed cfg M W DB.fresh rfl
    (by rw [show DB.fresh.flushingMemtable = {} from rfl, empty_payload {} rfl]; exact Nat.zero_le _)

-- Backpressure bounds the memory of the store, whatever the flusher does, and a
-- memtable that has reached the threshold always has a writer that will seal it.
theorem memory_bounded (cfg : Config) (M W : Nat) (labels : List Label) (db : DB)
    (small : ∀ write ∈ applied labels, writeSize write ≤ M)
    (threads : ∀ front middle, front <+: labels → run cfg DB.fresh front = some middle → middle.sealWaiters ≤ W)
    (fits : cfg.threshold + M * (W + 1) < 2 ^ 64) (done : run cfg DB.fresh labels = some db) :
    db.memtable.sizeBytes.toNat = db.memtable.payload ∧
      db.memtable.payload ≤ cfg.threshold - 1 + M * db.sealWaiters ∧
      db.flushingMemtable.payload ≤ cfg.threshold - 1 + M * (W + 1) ∧
      (cfg.threshold ≤ db.memtable.payload → db.memtable.isEmpty = false → 0 < db.sealWaiters) := by
  have pressed := run_pressed cfg M W DB.fresh db labels (fresh_pressed cfg M W) small threads fits done
  have low := threads labels db (List.prefix_refl labels) done
  have more : M * db.sealWaiters ≤ M * (W + 1) := Nat.mul_le_mul_left M (by omega)
  have active := pressed.active
  refine ⟨?_, active, pressed.sealed, pressed.full⟩
  rw [pressed.counted.size, UInt64.toNat_ofNat_of_lt']
  show db.memtable.payload < 2 ^ 64
  omega

-- Two writers wait for the first memtable to be flushed.
def stalledWriters : List Label := [.put [1] [1, 1] false, .put [2] [2, 2] false, .put [3] [3, 3] false]

theorem stalled_writers_bounded :
    ∃ db, run (smallStore 3 1000) DB.fresh stalledWriters = some db ∧ db.sealWaiters = 2 ∧
    db.memtable.payload ≤ 2 + 3 * 2 ∧
      db.flushingMemtable.payload ≤ 2 + 3 * 3 := by
  have value : (run (smallStore 3 1000) DB.fresh stalledWriters).map DB.sealWaiters = some 2 := by decide +kernel
  obtain ⟨db, done, waiters⟩ := Option.map_eq_some_iff.mp value
  have cuts : ∀ n < 4, (run (smallStore 3 1000) DB.fresh (stalledWriters.take n)).all
    (fun middle => middle.sealWaiters ≤ 2) = true := by
    decide +kernel
  have threads : ∀ front middle, front <+: stalledWriters → run (smallStore 3 1000) DB.fresh front = some middle →
      middle.sealWaiters ≤ 2 := by
    intro front middle inside ran
    have short := cuts front.length (Nat.lt_succ_of_le inside.length_le)
    rw [← List.prefix_iff_eq_take.mp inside, ran] at short
    simpa using short
  obtain ⟨_, active, sealed, _⟩ :=
    memory_bounded (smallStore 3 1000) 3 2 stalledWriters db (by decide) threads (by decide) done
  exact ⟨db, done, waiters, by rw [waiters] at active; exact active, sealed⟩

end Tombstash
