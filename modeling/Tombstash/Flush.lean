import Tombstash.Step

set_option autoImplicit false

namespace Tombstash

-- The form of a record apart from the lengths of its fields.
structure Shaped (rec : Record) : Prop where
  op : rec.op = Op.put ∨ rec.op = Op.delete
  separated : rec.separated = true → rec.value = []
  inline : rec.separated = false → rec.vptr = {}

theorem build_and_open_spec (cfg : Config) (records : List Record) (bytes : Bytes) (sst : SSTable)
    (ascending : Ascending Record.key records) (shaped : ∀ rec ∈ records, Shaped rec)
    (built : buildAndOpen cfg records = .ok (bytes, sst)) :
    Represents sst records ∧ sst.file = bytes ∧ openTable bytes = .ok sst ∧ bytes.length < offMax := by
  rw [buildAndOpen] at built
  obtain ⟨data, file, built⟩ := bind_returns _ _ _ built
  obtain ⟨_, _, _, fits, small, _⟩ := build_table_shape cfg.bloomSize records data file
  have storable : ∀ rec ∈ records, Storable rec := fun rec member =>
    ⟨(shaped rec member).op, (fits rec member).1, (fits rec member).2, (shaped rec member).separated,
      (shaped rec member).inline⟩
  obtain ⟨table, opened, contents, _, represents⟩ :=
    open_built_table cfg.bloomSize records data ascending storable file
  rw [opened] at built
  cases built
  exact ⟨represents, contents, opened, small⟩

-- A record as flushes write it: unchanged, or with its value moved to the log.
structure Separation (log : ValueLog) (original rec : Record) : Prop where
  key : rec.key = original.key
  op : rec.op = original.op
  stored : rec = original ∨ rec.separated = true ∧ rec.value = [] ∧ original.op = Op.put ∧
    rec.vptr.gen = log.gen ∧ Points log rec.vptr original.value

theorem separation_grows (log later : ValueLog) (original rec : Record) (grows : Grows log later)
    (separation : Separation log original rec) : Separation later original rec := by
  refine ⟨separation.key, separation.op, ?_⟩
  rcases separation.stored with same | ⟨separated, empty, put, gen, points⟩
  · exact .inl same
  · exact .inr ⟨separated, empty, put, gen.trans grows.gen.symm, points_grow log later _ _ grows points⟩

theorem separations_grow (log later : ValueLog) (originals records : List Record) (grows : Grows log later)
    (separations : List.Forall₂ (Separation log) originals records) :
    List.Forall₂ (Separation later) originals records :=
  separations.imp (fun original rec => separation_grows log later original rec grows)

theorem separation_shaped (log : ValueLog) (original rec : Record) (shaped : Shaped original)
    (separation : Separation log original rec) : Shaped rec := by
  rcases separation.stored with same | ⟨separated, empty, _⟩
  · rw [same]
    exact shaped
  · exact ⟨separation.op ▸ shaped.op, fun _ => empty, fun inline => by rw [separated] at inline; cases inline⟩

theorem separations_ascending (log : ValueLog) (originals records : List Record)
    (separations : List.Forall₂ (Separation log) originals records) (ascending : Ascending Record.key originals) :
    Ascending Record.key records :=
  ascending_related Record.key _ originals records separations (fun _ _ separation => separation.key) ascending

theorem snapshot_shaped (table : Memtable) : ∀ rec ∈ table.snapshot, Shaped rec ∧ rec.separated = false := by
  intro rec member
  obtain ⟨entry, _, rfl⟩ := List.mem_map.mp member
  refine ⟨⟨?_, fun separated => (by cases separated), fun _ => rfl⟩, rfl⟩
  cases dead : entry.2.tombstone <;> simp [entryRecord, dead]

-- What separating some records does to the log, in memory and on disk.
structure Appended (log later : ValueLog) (ops : List DiskOp) : Prop where
  aligned : later.Aligned
  grows : Grows log later
  written : ∀ disk : Disk Bytes, ∀ synced, disk log.name = some ⟨log.file, synced⟩ → synced ≤ log.file.length →
    applyAll disk ops log.name = some ⟨later.file, synced⟩
  during : ∀ disk : Disk Bytes, ∀ synced, disk log.name = some ⟨log.file, synced⟩ → synced ≤ log.file.length →
    Throughout (fun d => ∃ file, d log.name = some ⟨file, synced⟩ ∧ log.file <+: file ∧ file.length < offMax) disk ops
  touches : ∀ op ∈ ops, op.touches = [log.name]
  silent : ops = [] → later = log

theorem appended_refl (log : ValueLog) (aligned : log.Aligned) : Appended log log [] :=
  ⟨aligned, grows_refl log, fun _ _ present _ => present,
    fun disk _ present _ => throughout_nil _ disk ⟨log.file, present, List.prefix_rfl, aligned.small⟩,
    by simp, fun _ => rfl⟩

theorem appended_trans (first second third : ValueLog) (front back : List DiskOp) (one : Appended first second front)
    (two : Appended second third back) : Appended first third (front ++ back) := by
  refine ⟨two.aligned, grows_trans _ _ _ one.grows two.grows, ?_, ?_, ?_, ?_⟩
  · intro disk synced present inside
    rw [apply_all_append]
    have middle := one.written disk synced present inside
    rw [← one.grows.name] at middle ⊢
    exact two.written _ synced middle (Nat.le_trans inside one.grows.file.length_le)
  · intro disk synced present inside
    have middle := one.written disk synced present inside
    refine (throughout_append _ disk front back).mpr ⟨one.during disk synced present inside, ?_⟩
    rw [← one.grows.name] at middle ⊢
    refine throughout_imp _ _ _ _ (two.during _ synced middle (Nat.le_trans inside one.grows.file.length_le)) ?_
    rintro d ⟨file, there, longer, small⟩
    exact ⟨file, there, one.grows.file.trans longer, small⟩
  · intro op member
    rcases List.mem_append.mp member with inFront | inBack
    · exact one.touches op inFront
    · rw [two.touches op inBack, one.grows.name]
  · intro none
    obtain ⟨noFront, noBack⟩ := List.append_eq_nil_iff.mp none
    rw [two.silent noBack, one.silent noFront]

theorem append_appended (log later : ValueLog) (key value : Bytes) (ptr : ValuePtr) (aligned : log.Aligned)
    (done : log.append key value = .ok (later, ptr)) : Appended log later [vlogWrite log key value] := by
  obtain ⟨laterAligned, grows, file, _⟩ := append_aligned log later key value ptr aligned done
  have written : ∀ disk : Disk Bytes, ∀ synced, disk log.name = some ⟨log.file, synced⟩ → synced ≤ log.file.length →
      (vlogWrite log key value).apply disk log.name = some ⟨later.file, synced⟩ := by
    intro disk synced present inside
    simp only [vlogWrite, FsOp.apply, set_same, present, Option.map_some]
    rw [aligned.atEnd, overwrite_end, ← file, Nat.min_eq_left inside]
  refine ⟨laterAligned, grows, written, ?_, ?_, by simp⟩
  · intro disk synced present inside
    rw [throughout_cons]
    exact ⟨⟨log.file, present, List.prefix_rfl, aligned.small⟩,
      throughout_nil _ _ ⟨later.file, written disk synced present inside, grows.file, laterAligned.small⟩⟩
  · intro op member
    rw [List.mem_singleton.mp member]
    rfl

theorem separate_record_spec (cfg : Config) (log later : ValueLog) (rec stored : Record) (ops : List DiskOp)
    (aligned : log.Aligned) (done : separateRecord cfg log rec = .ok (later, stored, ops)) :
    Appended log later ops ∧ Separation later rec stored := by
  rw [separateRecord] at done
  by_cases large : shouldSeparate cfg rec = true
  · rw [if_pos large] at done
    obtain ⟨⟨next, ptr⟩, appended, done⟩ := bind_returns _ _ _ done
    cases done
    obtain ⟨_, grows, _, gen, points⟩ := append_aligned log later rec.key rec.value ptr aligned appended
    have put : rec.op = Op.put := by
      simp only [shouldSeparate, Bool.and_eq_true, decide_eq_true_eq] at large
      exact large.1
    exact ⟨append_appended log later _ _ ptr aligned appended,
      rfl, rfl, .inr ⟨rfl, rfl, put, gen.trans grows.gen.symm, points⟩⟩
  · rw [if_neg large] at done
    cases done
    exact ⟨appended_refl _ aligned, rfl, rfl, .inl rfl⟩

theorem separate_all_spec (cfg : Config) (log later : ValueLog) (originals records : List Record) (ops : List DiskOp)
    (aligned : log.Aligned) (done : separateAll cfg log originals = .ok (later, records, ops)) :
    Appended log later ops ∧ List.Forall₂ (Separation later) originals records := by
  induction originals generalizing log records ops with
  | nil =>
      cases done
      exact ⟨appended_refl _ aligned, .nil⟩
  | cons rec rest ih =>
      rw [separateAll] at done
      obtain ⟨⟨middle, stored, front⟩, first, done⟩ := bind_returns _ _ _ done
      obtain ⟨⟨final, others, back⟩, second, done⟩ := bind_returns _ _ _ done
      cases done
      obtain ⟨here, separation⟩ := separate_record_spec cfg log middle rec stored front aligned first
      obtain ⟨there, separations⟩ := ih middle others back here.aligned second
      exact ⟨appended_trans log middle later front back here there,
        .cons (separation_grows middle later rec stored there.grows separation) separations⟩

end Tombstash
