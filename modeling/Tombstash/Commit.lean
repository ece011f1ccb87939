import Tombstash.Sound

set_option autoImplicit false

namespace Tombstash

variable {serial : Prop}

-- A file whose contents survive every crash.
def durable (bytes : Bytes) : File := ⟨bytes, bytes.length⟩

-- A complete table file.
def Stored (disk : Disk Bytes) (name : Bytes) (sst : SSTable) : Prop :=
  ∃ bytes, disk name = some (durable bytes) ∧ openTable bytes = .ok sst ∧ sst.WellFormed

-- A separated record points into the first bound bytes of a generation.
def Inside (gen : UInt32) (bound : Nat) (rec : Record) : Prop :=
  rec.separated = true → rec.vptr.gen = gen ∧ rec.vptr.offset.toNat + rec.vptr.len.toNat ≤ bound

theorem inside_mono (gen : UInt32) (bound more : Nat) (rec : Record) (le : bound ≤ more)
    (inside : Inside gen bound rec) :
    Inside gen more rec :=
  fun separated => ⟨(inside separated).1, Nat.le_trans (inside separated).2 le⟩

-- The log is there with text in its durable part and, as long as merges run
-- one at a time, the tables' separated records point into that text.
def LogHolds (serial : Prop) (disk : Disk Bytes) (gen : UInt32) (text : Bytes) (ssts : List SSTable) : Prop :=
  ∃ file, disk (vlogName gen) = some file ∧ text <+: file.data.take file.synced ∧ file.synced ≤ file.data.length ∧
    file.data.length < offMax ∧ (serial → ∀ sst ∈ ssts, ∀ rec ∈ sst.records, Inside gen text.length rec)

-- What has to be on disk before a MANIFEST may name it.
structure Prepared (serial : Prop) (disk : Disk Bytes) (m : ManifestData) (text : Bytes) (ssts : List SSTable) :
    Prop where
  fits : m.Fits
  tables : List.Forall₂ (fun entry sst => Stored disk entry.name sst) m.tables ssts
  named : ∀ entry ∈ m.tables, ∃ seq, seq < m.nextSeq ∧ entry.name = sstName seq
  distinct : (m.tables.map ManifestEntry.name).Nodup
  vlog : LogHolds serial disk m.currentGen text ssts

structure Committed (serial : Prop) (disk : Disk Bytes) (m : ManifestData) (text : Bytes) (ssts : List SSTable) :
    Prop where
  manifest : disk manifestName = some (durable (manifestBytes m))
  prepared : Prepared serial disk m text ssts

-- The log's durable part only grows.
def LogKept (disk later : Disk Bytes) (gen : UInt32) : Prop :=
  ∀ file, disk (vlogName gen) = some file → file.synced ≤ file.data.length → file.data.length < offMax →
    ∃ file', later (vlogName gen) = some file' ∧ file.data.take file.synced <+: file'.data.take file'.synced ∧
      file'.synced ≤ file'.data.length ∧ file'.data.length < offMax

theorem log_kept_same (disk later : Disk Bytes) (gen : UInt32) (same : later (vlogName gen) = disk (vlogName gen)) :
    LogKept disk later gen :=
  fun file present inside small => ⟨file, same.trans present, List.prefix_rfl, inside, small⟩

theorem log_holds_kept (disk later : Disk Bytes) (gen : UInt32) (text : Bytes) (ssts : List SSTable)
    (kept : LogKept disk later gen) (holds : LogHolds serial disk gen text ssts) :
    LogHolds serial later gen text ssts := by
  obtain ⟨file, present, begins, inside, small, ranges⟩ := holds
  obtain ⟨file', there, more, inside', small'⟩ := kept file present inside small
  exact ⟨file', there, begins.trans more, inside', small', ranges⟩

theorem prepared_kept (disk later : Disk Bytes) (m : ManifestData) (text : Bytes) (ssts : List SSTable)
    (prepared : Prepared serial disk m text ssts) (tables : ∀ entry ∈ m.tables, later entry.name = disk entry.name)
    (vlog : LogKept disk later m.currentGen) :
    Prepared serial later m text ssts := by
  have same : ∀ entry ∈ m.tables, ∀ sst, Stored disk entry.name sst → Stored later entry.name sst := by
    rintro entry member sst ⟨bytes, present, opened, formed⟩
    exact ⟨bytes, (tables entry member).trans present, opened, formed⟩
  refine ⟨prepared.fits, ?_, prepared.named, prepared.distinct,
    log_holds_kept disk later _ text ssts vlog prepared.vlog⟩
  exact List.forall₂_iff_get.mpr ⟨prepared.tables.length_eq, fun i inLeft inRight =>
    same _ (List.get_mem _ _) _ ((List.forall₂_iff_get.mp prepared.tables).2 i inLeft inRight)⟩

theorem committed_kept (disk later : Disk Bytes) (m : ManifestData) (text : Bytes) (ssts : List SSTable)
    (committed : Committed serial disk m text ssts) (manifest : later manifestName = disk manifestName)
    (tables : ∀ entry ∈ m.tables, later entry.name = disk entry.name) (vlog : LogKept disk later m.currentGen) :
    Committed serial later m text ssts :=
  ⟨manifest.trans committed.manifest, prepared_kept disk later m text ssts committed.prepared tables vlog⟩

-- The files a committed store needs.
def neededFiles (m : ManifestData) : List Bytes :=
  vlogName m.currentGen :: m.tables.map ManifestEntry.name

def Apart (names : List Bytes) (ops : List DiskOp) : Prop := ∀ op ∈ ops, ∀ name ∈ op.touches, name ∉ names

theorem apart_append (names : List Bytes) (front back : List DiskOp) :
    Apart names (front ++ back) ↔ Apart names front ∧ Apart names back := by
  simp only [Apart, List.mem_append]
  exact ⟨fun all => ⟨fun op member => all op (.inl member), fun op member => all op (.inr member)⟩,
    fun both op member => member.elim (both.1 op) (both.2 op)⟩

theorem apart_frame (names : List Bytes) (disk : Disk Bytes) (ops : List DiskOp) (apart : Apart names ops)
    (name : Bytes) (member : name ∈ names) : applyAll disk ops name = disk name :=
  apply_all_frame disk ops name (fun op inside touched => apart op inside name touched member)

theorem prepared_apart (disk : Disk Bytes) (m : ManifestData) (text : Bytes) (ssts : List SSTable) (ops : List DiskOp)
    (prepared : Prepared serial disk m text ssts) (apart : Apart (neededFiles m) ops) :
    Prepared serial (applyAll disk ops) m text ssts :=
  prepared_kept disk _ m text ssts prepared
    (fun _ member => apart_frame _ disk ops apart _ (List.mem_cons_of_mem _ (List.mem_map_of_mem member)))
    (log_kept_same _ _ _ (apart_frame _ disk ops apart _ List.mem_cons_self))

theorem committed_apart (disk : Disk Bytes) (m : ManifestData) (text : Bytes) (ssts : List SSTable) (ops : List DiskOp)
    (committed : Committed serial disk m text ssts) (apart : Apart (manifestName :: neededFiles m) ops) :
    Throughout (fun d => Committed serial d m text ssts) disk ops := by
  intro done part
  have fewer : Apart (manifestName :: neededFiles m) done := fun op member => apart op (part.subset member)
  refine ⟨(apart_frame _ disk done fewer _ List.mem_cons_self).trans committed.manifest, ?_⟩
  exact prepared_apart disk m text ssts done committed.prepared
    (fun op member name touched needed => fewer op member name touched (List.mem_cons_of_mem _ needed))

theorem manifest_not_needed (disk : Disk Bytes) (m : ManifestData) (text : Bytes) (ssts : List SSTable)
    (prepared : Prepared serial disk m text ssts) (name : Bytes) (first : name[0]? = some 0x4d ∨ name[0]? = some 0x77) :
    name ∉ neededFiles m := by
  intro member
  rcases List.mem_cons.mp member with same | inTables
  · have kind := vlog_first m.currentGen
    rw [← same] at kind
    rcases first with first | first <;> exact absurd (first.symm.trans kind) (by decide)
  · obtain ⟨entry, inside, rfl⟩ := List.mem_map.mp inTables
    obtain ⟨seq, _, same⟩ := prepared.named entry inside
    have kind := sst_first seq
    rw [← same] at kind
    rcases first with first | first <;> exact absurd (first.symm.trans kind) (by decide)

theorem manifest_commits (disk : Disk Bytes) (old new : ManifestData) (text text' : Bytes) (ssts ssts' : List SSTable)
    (committed : Committed serial disk old text ssts) (prepared : Prepared serial disk new text' ssts') :
    Throughout (fun d => Committed serial d old text ssts ∨ Committed serial d new text' ssts') disk (manifestOps new) ∧
      Committed serial (applyAll disk (manifestOps new)) new text' ssts' := by
  have written := manifest_not_needed disk new text' ssts' prepared
  have staged : Apart (manifestName :: neededFiles old)
      [.truncate manifestTmpName, .append manifestTmpName (manifestBytes new), .fsync manifestTmpName] := by
    intro op member name touched needed
    have tmp : name = manifestTmpName := by
      simp only [List.mem_cons, List.not_mem_nil, or_false] at member
      rcases member with rfl | rfl | rfl <;> exact List.mem_singleton.mp touched
    subst tmp
    rcases List.mem_cons.mp needed with same | other
    · exact absurd same (by decide)
    · exact manifest_not_needed disk old text ssts committed.prepared _ (.inl rfl) other
  have before := committed_apart disk old text ssts _ committed staged
  have apart : Apart (neededFiles new) (manifestOps new) := by
    intro op member name touched needed
    have manifest : name = manifestTmpName ∨ name = manifestName := by
      simp only [manifestOps, List.mem_cons, List.not_mem_nil, or_false] at member
      rcases member with rfl | rfl | rfl | rfl | rfl <;> simp [FsOp.touches] at touched <;> grind
    rcases manifest with rfl | rfl <;> exact written _ (.inl rfl) needed
  have after : Committed serial (applyAll disk (manifestOps new)) new text' ssts' := by
    refine ⟨?_, prepared_apart disk new text' ssts' _ prepared apart⟩
    have different : manifestName ≠ manifestTmpName := by decide
    simp [manifestOps, applyAll, FsOp.apply, Disk.set, durable, different]
  refine ⟨?_, after⟩
  have split : manifestOps new = [.truncate manifestTmpName, .append manifestTmpName (manifestBytes new),
    .fsync manifestTmpName] ++ [.rename manifestTmpName manifestName, .fsyncDir] := rfl
  rw [split] at after ⊢
  rw [throughout_append]
  refine ⟨throughout_imp _ _ _ _ before (fun d old => .inl old), ?_⟩
  rw [apply_all_append] at after
  rw [throughout_cons, throughout_cons]
  exact ⟨.inl (throughout_last _ _ _ before), .inr after, throughout_nil _ _ (.inr after)⟩

theorem committed_crash (disk image : Disk Bytes) (m : ManifestData) (text : Bytes) (ssts : List SSTable)
    (crash : CrashImage disk image) (committed : Committed serial disk m text ssts) :
    Committed serial image m text ssts := by
  have survives : ∀ name bytes, disk name = some (durable bytes) → image name = some (durable bytes) :=
    fun name bytes =>
    crash_durable disk image crash name bytes
  have tables : ∀ entry ∈ m.tables, image entry.name = disk entry.name := by
    intro entry member
    obtain ⟨sst, _, bytes, present, _⟩ := forall_two_left _ _ _ committed.prepared.tables entry member
    rw [present, survives _ _ present]
  refine committed_kept disk image m text ssts committed ?_ tables ?_
  · rw [committed.manifest, survives _ _ committed.manifest]
  · intro file present inside small
    obtain ⟨kept, low, high, there⟩ := crash_some disk image crash _ file present
    have len : (file.data.take kept).length = kept := by rw [List.length_take]; omega
    refine ⟨_, there, ?_, by simp [len], by simp only [len]; omega⟩
    simp only [List.take_take, Nat.min_self]
    exact List.take_prefix_take_left low

theorem write_table_stored (disk : Disk Bytes) (name bytes : Bytes) (sst : SSTable) (opened : openTable bytes = .ok sst)
    (formed : sst.WellFormed) : Stored (applyAll disk (writeTable name bytes)) name sst := by
  refine ⟨bytes, ?_, opened, formed⟩
  have different : name ≠ tmpName name := fun same => by
    have length := congrArg List.length same
    simp [tmpName, tmpSuffix] at length
  simp [writeTable, applyAll, FsOp.apply, Disk.set, durable, different]

theorem write_table_touches (name bytes : Bytes) (op : DiskOp) (member : op ∈ writeTable name bytes) :
    ∀ other ∈ op.touches, other = name ∨ other = tmpName name := by
  intro other touched
  simp only [writeTable, List.mem_cons, List.not_mem_nil, or_false] at member
  rcases member with rfl | rfl | rfl | rfl <;> simp [FsOp.touches] at touched <;> grind

end Tombstash
