import Mathlib.Data.List.Nodup
import Tombstash.Sound
import Tombstash.Reads

set_option autoImplicit false

namespace Tombstash

variable {serial : Prop}

theorem storable_shaped (rec : Record) (storable : Storable rec) : Shaped rec :=
  ⟨storable.op, storable.separated, storable.inline⟩

theorem merge_tables_spec (tables : List Table) (formed : ∀ table ∈ tables, table.sst.WellFormed) (drop : Bool) :
    ∃ merged, mergeRecords (tables.map Table.sst) drop = .ok merged ∧ Ascending Record.key merged ∧
      (∀ rec ∈ merged, ∃ table ∈ tables, rec ∈ table.sst.records) ∧
      ∀ key, findKey Record.key key merged = (firstMatch Record.key key (tableRuns tables)).filter (keptBy drop) := by
  have represent : List.Forall₂ Represents (tables.map Table.sst) (tableRuns tables) := by
    rw [tableRuns, List.forall₂_map_left_iff, List.forall₂_map_right_iff, List.forall₂_same]
    exact formed
  obtain ⟨merged, done, ascending, origin, answers⟩ :=
    merge_records_spec (tables.map Table.sst) (tableRuns tables) drop represent
  refine ⟨merged, done, ascending, fun rec member => ?_, answers⟩
  obtain ⟨run, inside, present⟩ := origin rec member
  obtain ⟨table, there, rfl⟩ := List.mem_map.mp inside
  exact ⟨table, there, present⟩

theorem split_groups_spec (target : Nat) (cur : List Record) (bytes : Nat) (records : List Record) :
    (splitGroups target cur bytes records).flatten = cur ++ records ∧
      ∀ group ∈ splitGroups target cur bytes records, group ≠ [] := by
  induction records generalizing cur bytes with
  | nil =>
      rw [splitGroups]
      cases cur with
      | nil => simp
      | cons first rest => simp
  | cons rec rest ih =>
      rw [splitGroups]
      split
      · obtain ⟨flat, nonempty⟩ := ih [] 0
        refine ⟨by simp [flat], ?_⟩
        intro group member
        rcases List.mem_cons.mp member with here | later
        · simp [here]
        · exact nonempty group later
      · obtain ⟨flat, nonempty⟩ := ih (cur ++ [rec]) (bytes + groupBytes rec)
        exact ⟨by simp [flat], nonempty⟩

theorem build_groups_spec (cfg : Config) (seqs : List Nat) (groups : List (List Record)) (ops : List DiskOp)
    (outputs : List (Bytes × SSTable)) (same : seqs.length = groups.length)
    (ascending : ∀ group ∈ groups, Ascending Record.key group) (shaped : ∀ group ∈ groups, ∀ rec ∈ group, Shaped rec)
    (done : buildGroups cfg seqs groups = .ok (ops, outputs)) :
    List.Forall₂ (fun output group => Represents output.2 group) outputs groups ∧
    outputs.map Prod.fst = seqs.map sstName := by
  induction groups generalizing seqs ops outputs with
  | nil =>
      have none : seqs = [] := List.eq_nil_of_length_eq_zero same
      subst none
      cases done
      exact ⟨.nil, rfl⟩
  | cons group rest ih =>
      cases seqs with
      | nil => simp at same
      | cons seq seqs =>
          rw [buildGroups] at done
          obtain ⟨⟨bytes, sst⟩, built, done⟩ := bind_returns _ _ _ done
          obtain ⟨⟨laterOps, laterOutputs⟩, others, done⟩ := bind_returns _ _ _ done
          cases done
          obtain ⟨represents, _⟩ := build_and_open_spec cfg group bytes sst (ascending group (by simp))
            (shaped group (by simp)) built
          obtain ⟨tail, names⟩ := ih seqs laterOps laterOutputs (by simpa using same)
            (fun other member => ascending other (by simp [member]))
            (fun other member => shaped other (by simp [member])) others
          exact ⟨.cons represents tail, by simp [names]⟩

theorem start_build_spec (cfg : Config) (job next : MergeJob) (seqs : List Nat) (groups : List (List Record))
    (done : startBuild cfg job seqs groups = .ok next) :
    ∃ ops outputs, buildGroups cfg seqs groups = .ok (ops, outputs) ∧
      next = { job with seqs := seqs, groups := some groups, built := some (ops ++ [.fsyncDir], outputs) } := by
  rw [startBuild] at done
  obtain ⟨⟨ops, outputs⟩, built, done⟩ := bind_returns _ _ _ done
  cases done
  exact ⟨ops, outputs, built, rfl⟩

-- The parts of a job that stay as they were picked.
structure SameJob (job next : MergeJob) : Prop where
  inputs : next.inputs = job.inputs
  drop : next.dropTombstones = job.dropTombstones
  dest : next.destLevel = job.destLevel
  leveled : next.leveled = job.leveled

theorem group_members (groups : List (List Record)) (records : List Record) (flat : groups.flatten = records)
    (ascending : Ascending Record.key records) (shaped : ∀ rec ∈ records, Shaped rec) :
    (∀ group ∈ groups, Ascending Record.key group) ∧ ∀ group ∈ groups, ∀ rec ∈ group, Shaped rec := by
  subst flat
  refine ⟨fun group member => List.Pairwise.sublist (List.sublist_flatten_of_mem member) ascending, ?_⟩
  intro group member rec inside
  exact shaped rec (List.mem_flatten.mpr ⟨group, member, inside⟩)

theorem built_merge_sound (cfg : Config) (tables : List Table) (job next : MergeJob) (seqs : List Nat)
    (groups : List (List Record)) (records : List Record) (sound : MergeSound serial tables job)
    (merges : mergeRecords (job.inputs.map Table.sst) job.dropTombstones = .ok records)
    (flat : groups.flatten = records) (whole : job.leveled = false → groups = [records])
    (filled : job.leveled = true → ∀ group ∈ groups, group ≠ []) (same : seqs.length = groups.length)
    (ascending : Ascending Record.key records) (shaped : ∀ rec ∈ records, Shaped rec)
    (reserved : job.leveled = false → ∃ seq, seqs = [seq])
    (done : startBuild cfg job seqs groups = .ok next) : MergeSound serial tables next ∧ SameJob job next := by
  obtain ⟨ops, outputs, built, rfl⟩ := start_build_spec cfg job next seqs groups done
  obtain ⟨groupsAscending, groupsShaped⟩ := group_members groups records flat ascending shaped
  obtain ⟨represent, names⟩ := build_groups_spec cfg seqs groups ops outputs same groupsAscending groupsShaped built
  refine ⟨⟨sound.present, sound.formed, sound.nonempty, by simp, reserved, ?_, ?_, ?_⟩, rfl, rfl, rfl, rfl⟩
  · intro found eq
    cases eq
    exact ⟨records, merges, flat, whole, filled⟩
  · intro io outs eq
    cases eq
    exact ⟨groups, rfl, represent⟩
  · intro io outs eq
    cases eq
    exact names

theorem merged_records_fit (tables : List Table) (formed : ∀ table ∈ tables, table.sst.WellFormed) (drop : Bool)
    (records : List Record) (merges : mergeRecords (tables.map Table.sst) drop = .ok records) :
    Ascending Record.key records ∧ (∀ rec ∈ records, Shaped rec) ∧
    ∀ rec ∈ records, ∃ table ∈ tables, rec ∈ table.sst.records := by
  obtain ⟨merged, done, ascending, origin, _⟩ := merge_tables_spec tables formed drop
  rw [merges] at done
  cases done
  refine ⟨ascending, fun rec member => ?_, origin⟩
  obtain ⟨table, present, inside⟩ := origin rec member
  exact storable_shaped rec ((formed table present).storable rec inside)

theorem run_merge_sound (cfg : Config) (tables : List Table) (job next : MergeJob)
    (sound : MergeSound serial tables job) (unmerged : job.groups = none) (done : runMerge cfg job = .ok next) :
    MergeSound serial tables next ∧ SameJob job next := by
  rw [runMerge] at done
  obtain ⟨records, merges, done⟩ := bind_returns _ _ _ done
  obtain ⟨ascending, shaped, _⟩ := merged_records_fit job.inputs sound.formed _ records merges
  by_cases leveled : job.leveled = true
  · rw [if_pos leveled] at done
    cases done
    obtain ⟨flat, nonempty⟩ := split_groups_spec cfg.leveledTargetBytes [] 0 records
    refine ⟨⟨sound.present, sound.formed, sound.nonempty, by simp,
      fun no => absurd leveled (Bool.eq_false_iff.mp no), ?_, ?_, ?_⟩, rfl, rfl, rfl, rfl⟩
    · intro groups eq
      cases eq
      exact ⟨records, merges, by simpa using flat, fun no => absurd leveled (Bool.eq_false_iff.mp no),
        fun _ => nonempty⟩
    · intro io outputs eq
      rw [show job.built = none from sound.waiting unmerged] at eq
      cases eq
    · intro io outputs eq
      rw [show job.built = none from sound.waiting unmerged] at eq
      cases eq
  · rw [if_neg leveled] at done
    have tiered : job.leveled = false := Bool.eq_false_iff.mpr leveled
    obtain ⟨seq, only⟩ := sound.seqs tiered
    exact built_merge_sound cfg tables job next job.seqs [records] records sound merges (by simp) (fun _ => rfl)
      (fun yes => absurd yes leveled) (by simp [only]) ascending shaped sound.seqs done

theorem reserve_merge_sound (cfg : Config) (tables : List Table) (job next : MergeJob) (seqs : List Nat)
    (groups : List (List Record)) (sound : MergeSound serial tables job) (grouped : job.groups = some groups)
    (same : seqs.length = groups.length) (done : startBuild cfg job seqs groups = .ok next) :
    MergeSound serial tables next ∧ SameJob job next := by
  obtain ⟨records, merges, flat, whole, filled⟩ := sound.merged groups grouped
  obtain ⟨ascending, shaped, _⟩ := merged_records_fit job.inputs sound.formed _ records merges
  refine built_merge_sound cfg tables job next seqs groups records sound merges flat whole filled same ascending shaped
    (fun tiered => ?_) done
  rw [whole tiered] at same
  exact List.length_eq_one_iff.mp same

-- A record as gc writes it: with its value copied to the new log, if it was in
-- a log at all.
structure Relocation (logs : List ValueLog) (vlogs : List (UInt32 × Nat)) (log : ValueLog) (original rec : Record) :
    Prop where
  key : rec.key = original.key
  op : rec.op = original.op
  separated : rec.separated = original.separated
  value : rec.value = original.value
  inline : original.separated = false → rec = original
  moved : original.separated = true → ∃ value, readPtr logs vlogs original.vptr = .ok value ∧
    rec.vptr.gen = log.gen ∧ Points log rec.vptr value

theorem relocation_grows (logs : List ValueLog) (vlogs : List (UInt32 × Nat)) (log later : ValueLog)
    (original rec : Record) (grows : Grows log later) (relocation : Relocation logs vlogs log original rec) :
    Relocation logs vlogs later original rec := by
  refine ⟨relocation.key, relocation.op, relocation.separated, relocation.value, relocation.inline, fun separated => ?_⟩
  obtain ⟨value, reads, gen, points⟩ := relocation.moved separated
  exact ⟨value, reads, gen.trans grows.gen.symm, points_grow log later _ _ grows points⟩

theorem relocate_cons (logs : List ValueLog) (vlogs : List (UInt32 × Nat)) (log later : ValueLog) (rec : Record)
    (rest records : List Record) (ops : List DiskOp)
    (done : relocateAll logs vlogs log (rec :: rest) = .ok (later, records, ops)) :
    (rec.separated = true ∧ ∃ value middle ptr tail back, readPtr logs vlogs rec.vptr = .ok value ∧
      log.append rec.key value = .ok (middle, ptr) ∧ relocateAll logs vlogs middle rest = .ok (later, tail, back) ∧
      records = { rec with vptr := ptr } :: tail ∧ ops = vlogWrite log rec.key value :: back) ∨
    (rec.separated = false ∧ ∃ tail, relocateAll logs vlogs log rest = .ok (later, tail, ops) ∧
      records = rec :: tail) := by
  rw [relocateAll] at done
  by_cases separated : rec.separated = true
  · rw [if_pos separated] at done
    obtain ⟨value, reads, done⟩ := bind_returns _ _ _ done
    obtain ⟨⟨middle, ptr⟩, appends, done⟩ := bind_returns _ _ _ done
    obtain ⟨⟨final, tail, back⟩, others, done⟩ := bind_returns _ _ _ done
    cases done
    exact .inl ⟨separated, value, middle, ptr, tail, back, reads, appends, others, rfl, rfl⟩
  · rw [if_neg separated] at done
    obtain ⟨⟨final, tail, back⟩, others, done⟩ := bind_returns _ _ _ done
    cases done
    exact .inr ⟨Bool.eq_false_iff.mpr separated, tail, others, rfl⟩

theorem relocate_all_spec (logs : List ValueLog) (vlogs : List (UInt32 × Nat)) (log later : ValueLog)
    (originals records : List Record) (ops : List DiskOp) (aligned : log.Aligned)
    (done : relocateAll logs vlogs log originals = .ok (later, records, ops)) :
    Appended log later ops ∧ List.Forall₂ (Relocation logs vlogs later) originals records := by
  induction originals generalizing log records ops with
  | nil =>
      cases done
      exact ⟨appended_refl _ aligned, .nil⟩
  | cons rec rest ih =>
      rcases relocate_cons logs vlogs log later rec rest records ops done with
        ⟨separated, value, middle, ptr, tail, back, reads, appends, others, rfl, rfl⟩ | ⟨inline, tail, others, rfl⟩
      · obtain ⟨middleAligned, grows, _, gen, points⟩ := append_aligned log middle rec.key value ptr aligned appends
        obtain ⟨appended, relocations⟩ := ih middle tail back middleAligned others
        refine ⟨appended_trans log middle later [vlogWrite log rec.key value] back
          (append_appended log middle rec.key value ptr aligned appends) appended, .cons ?_ relocations⟩
        refine relocation_grows logs vlogs middle later _ _ appended.grows
          ⟨rfl, rfl, rfl, rfl, fun inline => ?_, fun _ => ⟨value, reads, gen.trans grows.gen.symm, points⟩⟩
        rw [separated] at inline
        cases inline
      · obtain ⟨appended, relocations⟩ := ih log tail ops aligned others
        refine ⟨appended, .cons ⟨rfl, rfl, rfl, rfl, fun _ => rfl, fun yes => ?_⟩ relocations⟩
        rw [inline] at yes
        cases yes

theorem relocate_all_file (logs : List ValueLog) (vlogs : List (UInt32 × Nat)) (log later : ValueLog)
    (originals records : List Record) (ops : List DiskOp) (values : Bytes → Bytes) (aligned : log.Aligned)
    (reads : ∀ rec ∈ originals, rec.separated = true → ∀ value, readPtr logs vlogs rec.vptr = .ok value →
      value = values rec.key)
    (done : relocateAll logs vlogs log originals = .ok (later, records, ops)) :
    later.file = log.file ++ (originals.filter Record.separated).flatMap
    (fun rec => vlogEntry rec.key (values rec.key)) := by
  induction originals generalizing log records ops with
  | nil =>
      cases done
      simp
  | cons rec rest ih =>
      obtain ⟨here, others⟩ := List.forall_mem_cons.mp reads
      rcases relocate_cons logs vlogs log later rec rest records ops done with
        ⟨separated, value, middle, ptr, tail, back, read, appends, more, rfl, rfl⟩ | ⟨inline, tail, more, rfl⟩
      · obtain ⟨middleAligned, _, file, _⟩ := append_aligned log middle rec.key value ptr aligned appends
        rw [ih middle tail back middleAligned others more, file, here separated value read,
          List.filter_cons, if_pos separated, List.flatMap_cons, List.append_assoc]
      · rw [ih log tail ops aligned others more, List.filter_cons, inline]
        rfl

theorem relocations_ascending (logs : List ValueLog) (vlogs : List (UInt32 × Nat)) (log : ValueLog)
    (originals records : List Record) (relocations : List.Forall₂ (Relocation logs vlogs log) originals records)
    (ascending : Ascending Record.key originals) : Ascending Record.key records :=
  ascending_related Record.key _ originals records relocations (fun _ _ relocation => relocation.key) ascending

theorem relocation_shaped (logs : List ValueLog) (vlogs : List (UInt32 × Nat)) (log : ValueLog) (original rec : Record)
    (shaped : Shaped original) (relocation : Relocation logs vlogs log original rec) : Shaped rec := by
  refine ⟨relocation.op ▸ shaped.op, fun separated => ?_, fun inline => ?_⟩
  · rw [relocation.value]
    exact shaped.separated (relocation.separated ▸ separated)
  · rw [relocation.separated] at inline
    rw [relocation.inline inline]
    exact shaped.inline inline

theorem relocation_in_range (logs : List ValueLog) (vlogs : List (UInt32 × Nat)) (log : ValueLog)
    (original rec : Record) (relocation : Relocation logs vlogs log original rec) : InRange log rec := by
  intro separated
  obtain ⟨_, _, gen, points⟩ := relocation.moved (relocation.separated ▸ separated)
  exact ⟨gen, points.inside⟩

def notAmong (ids : List Nat) (table : Table) : Bool := decide (table.id ∉ ids)

-- The tables an install makes of the files of its merge.
def outputTables (start : Nat) (level : Int) (outputs : List (Bytes × SSTable)) : List Table :=
  outputs.zipIdx.map (fun entry => ⟨start + entry.2, entry.1.1, level, entry.1.2⟩)

def MergeJob.outputLevel (job : MergeJob) : Int := if job.leveled then job.destLevel else 0

theorem output_tables_member (start : Nat) (level : Int) (outputs : List (Bytes × SSTable)) (table : Table)
    (member : table ∈ outputTables start level outputs) :
    start ≤ table.id ∧ table.id < start + outputs.length ∧ table.level = level ∧ (table.name, table.sst) ∈ outputs := by
  obtain ⟨entry, inside, rfl⟩ := List.mem_map.mp member
  obtain ⟨low, bound, found⟩ := List.mem_zipIdx inside
  refine ⟨Nat.le_add_right _ _, by simpa using bound, rfl, ?_⟩
  rw [found]
  exact List.getElem_mem _

theorem output_tables_ids (start : Nat) (level : Int) (outputs : List (Bytes × SSTable)) :
    tableIds (outputTables start level outputs) = List.range' start outputs.length := by
  have indices := List.zipIdx_map_snd 0 outputs
  rw [tableIds, outputTables, List.map_map]
  calc outputs.zipIdx.map (Table.id ∘ fun entry => (⟨start + entry.2, entry.1.1, level, entry.1.2⟩ : Table))
      = (outputs.zipIdx.map Prod.snd).map (fun n => start + n) := by rw [List.map_map]; rfl
    _ = List.range' start outputs.length := by
        rw [indices, List.map_add_range']
        rfl

theorem replace_inputs_inserted (ids : List Nat) (output : Table) (tables : List Table) :
    replaceInputs ids output true tables = tables.filter (notAmong ids) := by
  induction tables with
  | nil => rfl
  | cons table rest ih =>
      rw [replaceInputs, List.filter_cons]
      by_cases input : table.id ∈ ids
      · simp [input, notAmong, ih]
      · simp [input, notAmong, ih]

theorem replace_inputs_perm (ids : List Nat) (output : Table) (tables : List Table) :
    (replaceInputs ids output false tables).Perm (tables.filter (notAmong ids) ++ [output]) := by
  induction tables with
  | nil => exact .refl _
  | cons table rest ih =>
      rw [replaceInputs, List.filter_cons]
      by_cases input : table.id ∈ ids
      · simp only [notAmong, input, not_true_eq_false, decide_false, Bool.false_eq_true, if_false]
        rw [replace_inputs_inserted]
        exact (List.perm_append_singleton output _).symm
      · simp only [notAmong, input, not_false_eq_true, decide_true, if_true, List.cons_append]
        exact ih.cons table

theorem replace_inputs_segment (ids : List Nat) (output : Table) (front middle back : List Table) (filled : middle ≠ [])
    (inside : ∀ table ∈ middle, table.id ∈ ids) (outsideFront : ∀ table ∈ front, table.id ∉ ids)
    (outsideBack : ∀ table ∈ back, table.id ∉ ids) :
    replaceInputs ids output false (front ++ middle ++ back) = front ++ [output] ++ back := by
  induction front with
  | nil =>
      cases middle with
      | nil => exact absurd rfl filled
      | cons first others =>
          have first_input := inside first (by simp)
          have gone : others.filter (notAmong ids) = [] :=
            List.filter_eq_nil_iff.mpr (fun table member => by simp [notAmong, inside table (by simp [member])])
          have stays : back.filter (notAmong ids) = back :=
            List.filter_eq_self.mpr (fun table member => by simp [notAmong, outsideBack table member])
          simp only [List.nil_append, List.cons_append, replaceInputs, if_pos first_input, Bool.false_eq_true, if_false]
          rw [replace_inputs_inserted, List.filter_append, gone, stays, List.nil_append]
  | cons table rest ih =>
      have kept := outsideFront table (by simp)
      simp only [List.cons_append, replaceInputs, if_neg kept]
      have tail := ih (fun other member => outsideFront other (by simp [member]))
      simp only [List.append_assoc] at tail ⊢
      rw [tail]

theorem install_job_spec (db : DB) (job : MergeJob) (outputs : List (Bytes × SSTable))
    (whole : job.leveled = false → ∃ output, outputs = [output]) :
    ∃ tables, installJob db job outputs = { db with sstables := tables, nextId := db.nextId + outputs.length } ∧
      tables.Perm (db.sstables.filter (notAmong (tableIds job.inputs)) ++
        outputTables db.nextId job.outputLevel outputs) := by
  unfold installJob MergeJob.outputLevel
  by_cases leveled : job.leveled = true
  · simp only [leveled, if_true]
    exact ⟨_, rfl, List.perm_insertionSort _ _⟩
  · simp only [leveled]
    obtain ⟨⟨name, sst⟩, only⟩ := whole (Bool.eq_false_iff.mpr leveled)
    subst only
    exact ⟨_, rfl, replace_inputs_perm _ _ _⟩

theorem installed_ids_nodup (tables : List Table) (start : Nat) (level : Int) (ids : List Nat)
    (outputs : List (Bytes × SSTable)) (distinct : (tableIds tables).Nodup)
      (older : ∀ table ∈ tables, table.id < start) :
    (tableIds (tables.filter (notAmong ids) ++ outputTables start level outputs)).Nodup := by
  rw [tableIds, List.map_append, List.nodup_append, ← tableIds, ← tableIds, output_tables_ids]
  refine ⟨distinct.sublist (List.filter_sublist.map _), List.nodup_range', ?_⟩
  intro old inOld new inNew same
  obtain ⟨kept, keptMember, rfl⟩ := List.mem_map.mp inOld
  have low := (List.mem_range'_1.mp inNew).1
  have high := older kept (List.mem_filter.mp keptMember).1
  omega

theorem built_outputs (tables : List Table) (job : MergeJob) (io : List DiskOp) (outputs : List (Bytes × SSTable))
    (sound : MergeSound serial tables job) (built : job.built = some (io, outputs)) :
    (job.leveled = false → ∃ output, outputs = [output]) ∧ ∀ output ∈ outputs, output.2.WellFormed ∧
      ∀ rec ∈ output.2.records, ∃ table ∈ job.inputs, rec ∈ table.sst.records := by
  obtain ⟨groups, grouped, represent⟩ := sound.built io outputs built
  obtain ⟨records, merges, flat, whole, _⟩ := sound.merged groups grouped
  obtain ⟨_, _, origin⟩ := merged_records_fit job.inputs sound.formed _ records merges
  refine ⟨fun tiered => ?_, fun output member => ?_⟩
  · have same := represent.length_eq
    rw [whole tiered] at same
    exact List.length_eq_one_iff.mp same
  · obtain ⟨group, inside, represents⟩ := forall_two_right _ groups outputs represent.flip output member
    refine ⟨represents_well_formed _ group represents, fun rec present => ?_⟩
    rw [represents_records _ group represents] at present
    exact origin rec (flat ▸ List.mem_flatten.mpr ⟨group, inside, present⟩)

end Tombstash
