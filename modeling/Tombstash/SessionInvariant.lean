import Tombstash.Session
import Tombstash.Store

set_option autoImplicit false

namespace Tombstash

variable {found : Bytes} {serial : Prop}

-- A condition on the two write-ahead logs and the committed store beside them.
abbrev Good := Option File → Option File → ManifestData → Bytes → List SSTable → Prop

-- Workers and readers that go leave the files of a MANIFEST alone.
structure Fence (db : DB) (garbage : List Bytes) (m : ManifestData) : Prop where
  tables : ∀ entry ∈ m.tables, entry.name ∉ workFiles db ∧ entry.name ∉ garbage
  vlog : vlogName m.currentGen ∉ garbage
  named : ∀ entry ∈ m.tables, ∃ seq, entry.name = sstName seq
  gen : db.flusher ≠ none → m.currentGen = db.currentGen

-- A directory that can be opened: one before its first MANIFEST, or a complete store.
def Guarded (serial : Prop) (good : Good) (empty : Prop) (db : DB) (garbage : List Bytes) (disk : Disk Bytes) : Prop :=
  (Blank disk ∧ workFiles db = [] ∧ empty) ∨
    ∃ m text ssts, Committed serial disk m text ssts ∧ Fence db garbage m ∧
    good (disk walName) (disk flushingWalName) m text ssts

-- What holds of the system in every state, whatever the section under way has
-- left to do.
structure SysInv (serial : Prop) (good : Good) (empty : Prop) (s : Sys) : Prop where
  state : ∃ i log, Sound serial s.db i log ∧ Backed serial s.db log (applyAll s.disk s.todo)
  numbered : Numbered s.db
  bounds : LevelBounds s.db
  listable : Listable s.db
  known : Known s.db
  valid : s.disk.Valid
  names : ∀ name, (s.disk name).isSome = true → StoreName name
  touches : ∀ op ∈ s.todo, ∀ name ∈ op.touches, StoreName name
  guarded : Throughout (Guarded serial good empty s.db s.garbage) s.disk s.todo
  apart : Apart (workFiles s.db) s.todo
  away : Apart s.garbage s.todo
  stale : ∀ name ∈ s.garbage ++ s.doomed, Stale s.db name

theorem apply_names {P : Bytes → Prop} (disk : Disk Bytes) (op : DiskOp)
    (names : ∀ name, (disk name).isSome = true → P name) (touches : ∀ name ∈ op.touches, P name) :
    ∀ name, (op.apply disk name).isSome = true → P name := by
  intro name there
  by_cases touched : name ∈ op.touches
  · exact touches name touched
  · rw [apply_frame disk op name touched] at there
    exact names name there

theorem apply_all_names {P : Bytes → Prop} (disk : Disk Bytes) (ops : List DiskOp)
    (names : ∀ name, (disk name).isSome = true → P name) (touches : ∀ op ∈ ops, ∀ name ∈ op.touches, P name) :
    ∀ name, (applyAll disk ops name).isSome = true → P name := by
  induction ops generalizing disk with
  | nil => exact names
  | cons op rest ih =>
      exact ih (op.apply disk) (apply_names disk op names (touches op (by simp)))
        (fun other member => touches other (by simp [member]))

theorem io_inv (good : Good) (empty : Prop) (s : Sys) (op : DiskOp) (rest : List DiskOp) (next : s.todo = op :: rest)
    (inv : SysInv serial good empty s) : SysInv serial good empty { s with disk := op.apply s.disk, todo := rest } := by
  obtain ⟨i, log, sound, backed⟩ := inv.state
  have guarded := inv.guarded
  rw [next] at backed guarded
  have inside : ∀ other ∈ rest, other ∈ s.todo := fun other member => by simp [next, member]
  have first : op ∈ s.todo := by simp [next]
  exact { inv with
    state := ⟨i, log, sound, backed⟩
    valid := apply_valid s.disk op inv.valid
    names := apply_names s.disk op inv.names (inv.touches op first)
    touches := fun other member => inv.touches other (inside other member)
    guarded := ((throughout_cons _ _ _ _).mp guarded).2
    apart := fun other member => inv.apart other (inside other member)
    away := fun other member => inv.away other (inside other member) }

theorem guarded_kept (good : Good) (empty : Prop) (db : DB) (garbage : List Bytes) (disk : Disk Bytes)
    (ops : List DiskOp) (guarded : Guarded serial good empty db garbage disk)
    (blank : Blank disk → workFiles db = [] → Blank (applyAll disk ops)) (wal : Apart walFiles ops)
    (manifest : Apart [manifestName] ops)
    (fenced : ∀ m, Fence db garbage m → Apart (m.tables.map ManifestEntry.name) ops ∧
      LogKept disk (applyAll disk ops) m.currentGen) :
    Guarded serial good empty db garbage (applyAll disk ops) := by
  rcases guarded with ⟨none, idle, nothing⟩ | ⟨m, text, ssts, committed, fence, holds⟩
  · exact .inl ⟨blank none idle, idle, nothing⟩
  · obtain ⟨tables, kept⟩ := fenced m fence
    refine .inr ⟨m, text, ssts, ?_, fence, ?_⟩
    · exact committed_kept disk _ m text ssts committed (apart_frame _ disk ops manifest _ (by simp))
        (fun entry member => apart_frame _ disk ops tables _ (List.mem_map_of_mem member)) kept
    · rw [apart_frame _ disk ops wal walName (by decide), apart_frame _ disk ops wal flushingWalName (by decide)]
      exact holds

theorem throughout_swap (P : Disk Bytes → Prop) (disk : Disk Bytes) (ops todo : List DiskOp)
    (apart : ∀ op ∈ ops, ∀ other ∈ todo, ∀ name ∈ op.touches, name ∉ other.touches)
    (kept : ∀ done, done <+: todo → P (applyAll disk done) → P (applyAll (applyAll disk done) ops))
    (all : Throughout P disk todo) : Throughout P (applyAll disk ops) todo := by
  intro done part
  rw [apply_all_swap disk ops done (fun op member other inside => apart op member other (part.subset inside))]
  exact kept done part (all done part)

theorem work_file_kinds (db : DB) (name : Bytes) (member : name ∈ workFiles db) : name ∉ otherFiles := by
  intro other
  rcases work_first db name member with table | log
  · exact (other_first name other).1 table
  · exact (other_first name other).2 log

theorem quiet_frames (cfg : Config) (db next : DB) (kind : Kind) (ops : List DiskOp) (garbage : List Bytes)
    (quiet : kind = .worked ∨ kind = .idle) (move : Move cfg found db kind next ops garbage) :
    Frames db next ∧ garbage = [] := by
  rcases quiet with rfl | rfl
  · exact worked_frames cfg db next ops garbage move
  · cases move <;> exact ⟨⟨rfl, rfl, rfl, Iff.rfl, rfl⟩, rfl⟩

theorem idle_ops (cfg : Config) (db next : DB) (ops : List DiskOp) (garbage : List Bytes)
    (move : Move cfg found db .idle next ops garbage) : ops = [] := by
  cases move <;> rfl

theorem quiet_calm (kind : Kind) (quiet : kind = .worked ∨ kind = .idle) : ¬ kind.Picks := by
  rcases quiet with rfl | rfl <;> exact id

theorem quiet_touches (good : Good) (empty : Prop) (s : Sys) (next : DB) (kind : Kind) (ops : List DiskOp)
    (garbage : List Bytes) (quiet : kind = .worked ∨ kind = .idle) (inv : SysInv serial good empty s)
    (move : Move s.cfg found s.db kind next ops garbage) :
    (∀ op ∈ ops, ∀ name ∈ op.touches, name ∈ workFiles s.db) ∧
      ∀ op ∈ ops, ∀ other ∈ s.todo, ∀ name ∈ op.touches, name ∉ other.touches := by
  obtain ⟨i, log, sound, backed⟩ := inv.state
  have touches : ∀ op ∈ ops, ∀ name ∈ op.touches, name ∈ workFiles s.db := by
    rcases quiet with rfl | rfl
    · exact worked_touches s.cfg s.db next i log _ ops garbage sound backed move
    · simp [idle_ops s.cfg s.db next ops garbage move]
  exact ⟨touches, fun op member other inside name touched both => inv.apart other inside name both
    (touches op member name touched)⟩

theorem work_store_name (db : DB) (i : Nat) (log : ValueLog) (sound : Sound serial db i log) (numbered : Numbered db)
    (small : db.nextSeq < 2 ^ 64) (name : Bytes) (member : name ∈ workFiles db) : StoreName name := by
  rcases work_file_seq db i log sound numbered small name member with ⟨same, _⟩ | ⟨seq, _, fits, files⟩
  · exact .inr (.inr ⟨_, same⟩)
  · exact .inr (.inl ⟨seq, fits, files⟩)

theorem quiet_keeps_log (good : Good) (empty : Prop) (s : Sys) (next : DB) (kind : Kind) (ops : List DiskOp)
    (garbage : List Bytes) (quiet : kind = .worked ∨ kind = .idle) (inv : SysInv serial good empty s)
    (move : Move s.cfg found s.db kind next ops garbage) (done : List DiskOp) (part : done <+: s.todo)
    (m : ManifestData) (fence : Fence s.db s.garbage m) :
    LogKept (applyAll s.disk done) (applyAll (applyAll s.disk done) ops) m.currentGen := by
  obtain ⟨i, log, sound, backed⟩ := inv.state
  obtain ⟨touches, _⟩ := quiet_touches good empty s next kind ops garbage quiet inv move
  obtain ⟨synced, present⟩ := backed.vlog
  cases running : s.db.flusher with
  | none =>
      refine log_kept_same _ _ _ (apply_all_frame _ ops _ (fun op member touched => ?_))
      rcases work_file_seq s.db i log sound inv.numbered inv.listable.1 _ (touches op member _ touched) with
        ⟨_, flushing⟩ | ⟨seq, _, _, files⟩
      · exact flushing running
      · exact absurd ((vlog_first _).symm.trans (table_file_first seq _ files)) (by decide)
  | some job =>
      -- The flusher's log is not touched by what the section has left.
      have mine : vlogName s.db.currentGen ∈ workFiles s.db :=
        List.mem_append_left _ ((mem_flusher_files s.db job running _).mpr (.inl rfl))
      have here : applyAll s.disk done (vlogName s.db.currentGen) = some ⟨log.file, synced⟩ := by
        rw [← present, apart_frame _ s.disk s.todo inv.apart _ mine]
        exact apart_frame _ s.disk done (fun op member => inv.apart op (part.subset member)) _ mine
      rw [fence.gen (by simp [running])]
      rcases quiet with rfl | rfl
      · exact worked_log_kept s.cfg s.db next i log _ ops garbage sound backed move _ synced here
          (apply_all_valid s.disk s.todo inv.valid _ _ present)
      · rw [idle_ops s.cfg s.db next ops garbage move]
        exact log_kept_same _ _ _ rfl

theorem quiet_inv (good : Good) (empty : Prop) (s : Sys) (next : DB) (kind : Kind) (ops : List DiskOp)
    (garbage : List Bytes) (quiet : kind = .worked ∨ kind = .idle) (inv : SysInv serial good empty s)
    (move : Move s.cfg found s.db kind next ops garbage) :
    SysInv serial good empty { s with db := next, disk := applyAll s.disk ops } := by
  obtain ⟨i, log, sound, backed⟩ := inv.state
  obtain ⟨frames, rfl⟩ := quiet_frames s.cfg s.db next kind ops garbage quiet move
  have small := inv.listable.1
  have listable : Listable next := by
    rw [Listable, frames.counter, frames.tables]
    exact inv.listable
  have valid := apply_all_valid s.disk s.todo inv.valid
  have sameGen : next.currentGen ≠ s.db.currentGen →
    found = (fileData (applyAll s.disk s.todo) (vlogName next.currentGen)).getD [] :=
    fun different => absurd frames.gen different
  obtain ⟨j, later, soundNext, backedNext, _⟩ :=
    move_advances s.cfg s.db i log (applyAll s.disk s.todo) next kind ops [] sound
    inv.numbered inv.bounds move (fun _ picks => absurd picks (quiet_calm kind quiet)) valid backed listable sameGen
  have traces := move_traces s.cfg s.db next i log kind ops [] sound inv.numbered move listable.1
  obtain ⟨touches, swaps⟩ := quiet_touches good empty s next kind ops [] quiet inv move
  have storeNames : ∀ op ∈ ops, ∀ name ∈ op.touches, StoreName name := fun op member name touched =>
    work_store_name s.db i log sound inv.numbered small name (touches op member name touched)
  have kept := throughout_swap _ s.disk ops s.todo swaps (fun done part guarded =>
    guarded_kept good empty s.db s.garbage (applyAll s.disk done) ops guarded
      (fun blank none => by
        have same : applyAll (applyAll s.disk done) ops = applyAll s.disk done := funext (fun name =>
          apply_all_frame _ ops name (fun op member touched => by
            have inside := touches op member name touched
            rw [none] at inside
            cases inside))
        rw [same]
        exact blank)
      (fun op member name touched wal =>
        work_file_kinds s.db name (touches op member name touched) (List.mem_append_left _ wal))
      (fun op member name touched same => by
        have manifest : name ∈ otherFiles := by
          rw [List.mem_singleton.mp same]
          decide
        exact work_file_kinds s.db name (touches op member name touched) manifest)
      (fun m fence => ⟨fun op member name touched inside => by
          obtain ⟨entry, there, rfl⟩ := List.mem_map.mp inside
          exact (fence.tables entry there).1 (touches op member _ touched),
        quiet_keeps_log good empty s next kind ops [] quiet inv move done part m fence⟩)) inv.guarded
  have fences : ∀ m, Fence s.db s.garbage m → Fence next s.garbage m := fun m fence =>
    ⟨by rw [frames.files]; exact fence.tables, fence.vlog, fence.named,
      fun flushing => (fence.gen (fun none => flushing (frames.flusher.mpr none))).trans frames.gen.symm⟩
  refine
    { state := ⟨j, later, soundNext, ?_⟩
      numbered := move_numbered s.cfg s.db next i log kind ops [] sound inv.numbered move listable.1
      bounds := move_level_bounds s.cfg s.db next i log kind ops [] sound inv.bounds move
      listable := listable
      known := move_known s.cfg s.db next i log kind ops [] sound inv.numbered inv.known move listable.1
      valid := apply_all_valid s.disk ops inv.valid
      names := apply_all_names s.disk ops inv.names storeNames
      touches := inv.touches
      guarded := ?_
      apart := by rw [frames.files]; exact inv.apart
      away := inv.away
      stale := fun name member => stale_kept s.db next traces (by rw [frames.gen]) name (inv.stale name member) }
  · rw [apply_all_swap s.disk ops s.todo swaps]
    exact backedNext
  · refine throughout_imp _ _ _ _ kept (fun d guarded => ?_)
    rcases guarded with ⟨blank, idle, nothing⟩ | ⟨m, text, ssts, committed, fence, holds⟩
    · exact .inl ⟨blank, by rw [frames.files]; exact idle, nothing⟩
    · exact .inr ⟨m, text, ssts, committed, fences m fence, holds⟩

theorem unlink_present (disk : Disk Bytes) (name other : Bytes) (file : File)
    (present : (FsOp.unlink name).apply disk other = some file) : disk other = some file := by
  by_cases same : other = name
  · rw [same, FsOp.apply, set_same] at present
    cases present
  · rwa [FsOp.apply, set_other _ _ _ _ same] at present

theorem unlink_names (disk : Disk Bytes) (name : Bytes) (names : ∀ name, (disk name).isSome = true → StoreName name) :
    ∀ other, ((FsOp.unlink name).apply disk other).isSome = true → StoreName other := by
  intro other there
  obtain ⟨file, present⟩ := Option.isSome_iff_exists.mp there
  exact names other (by rw [unlink_present disk name other file present]; rfl)

theorem blank_unlink (disk : Disk Bytes) (name : Bytes) (blank : Blank disk) :
    Blank ((FsOp.unlink name).apply disk) := by
  have before := unlink_present disk name
  refine ⟨fun other there => ?_, fun file present => blank.wal file (before _ file present),
    fun file present => blank.vlog file (before _ file present)⟩
  obtain ⟨file, present⟩ := Option.isSome_iff_exists.mp there
  exact blank.few other (by rw [before other file present]; rfl)

theorem committed_unique (disk : Disk Bytes) (m other : ManifestData) (text text' : Bytes) (ssts ssts' : List SSTable)
    (one : Committed serial disk m text ssts) (two : Committed serial disk other text' ssts') : m = other := by
  have same := one.manifest.symm.trans two.manifest
  simp only [durable, Option.some.injEq, File.mk.injEq] at same
  have read := manifest_round_trip m one.prepared.fits
  rw [same.1, manifest_round_trip other two.prepared.fits] at read
  simpa using read.symm

theorem stale_kinds (db : DB) (name : Bytes) (stale : Stale db name) : name ∉ otherFiles := by
  intro other
  rcases stale with ⟨seq, _, _, rfl⟩ | ⟨gen, _, rfl⟩
  · exact (other_first _ other).1 (sst_first seq)
  · exact (other_first _ other).2 (vlog_first gen)

theorem collect_spares (good : Good) (empty : Prop) (s : Sys) (name : Bytes) (inv : SysInv serial good empty s)
    (marked : name ∈ s.garbage ∨ s.todo = [] ∧ name ∈ s.doomed) (done : List DiskOp) (part : done <+: s.todo)
    (m : ManifestData) (text : Bytes) (ssts : List SSTable)
    (committed : Committed serial (applyAll s.disk done) m text ssts) (fence : Fence s.db s.garbage m) :
    name ∉ m.tables.map ManifestEntry.name ∧ vlogName m.currentGen ≠ name := by
  rcases marked with garbage | ⟨none, doomed⟩
  · refine ⟨fun inside => ?_, fun same => fence.vlog (same ▸ garbage)⟩
    obtain ⟨entry, there, rfl⟩ := List.mem_map.mp inside
    exact (fence.tables entry there).2 garbage
  · obtain ⟨i, log, sound, backed⟩ := inv.state
    have notLive :=
      stale_not_live s.db inv.numbered inv.listable.1 name (inv.stale name (List.mem_append_right _ doomed))
    rw [none] at part backed
    rw [List.prefix_nil.mp part] at committed
    obtain ⟨seq, text', _, _, current⟩ := backed.committed
    rw [committed_unique _ m _ _ _ _ _ committed current]
    rw [← needed_live seq] at notLive
    simp only [neededFiles, List.mem_cons, not_or] at notLive
    exact ⟨notLive.2.2, fun same => notLive.2.1 same.symm⟩

theorem collect_inv (good : Good) (empty : Prop) (s : Sys) (name : Bytes) (inv : SysInv serial good empty s)
    (marked : name ∈ s.garbage ∨ s.todo = [] ∧ name ∈ s.doomed) :
    SysInv serial good empty
      { s with
        disk := (FsOp.unlink name).apply s.disk
        doomed := s.doomed.filter (fun other => decide (other ≠ name))
        garbage := s.garbage.filter (fun other => decide (other ≠ name)) } := by
  obtain ⟨i, log, sound, backed⟩ := inv.state
  have small := inv.listable.1
  have stale : Stale s.db name := inv.stale name
    (marked.elim (List.mem_append_left _) (fun both => List.mem_append_right _ both.2))
  have notLive := stale_not_live s.db inv.numbered small name stale
  have notWork := stale_not_work s.db i log sound inv.numbered small name stale
  have notOther := stale_kinds s.db name stale
  have single : ∀ names : List Bytes, name ∉ names → Apart names [FsOp.unlink name] := by
    intro names absent op member other touched inside
    rw [List.mem_singleton.mp member] at touched
    exact absent (List.mem_singleton.mp touched ▸ inside)
  have swaps : ∀ op ∈ [FsOp.unlink name], ∀ other ∈ s.todo, ∀ touched ∈ op.touches, touched ∉ other.touches := by
    intro op member other inside touched mine theirs
    rw [List.mem_singleton.mp member] at mine
    rw [List.mem_singleton.mp mine] at theirs
    rcases marked with garbage | ⟨none, _⟩
    · exact inv.away other inside name theirs garbage
    · rw [none] at inside
      cases inside
  have backedNext := backed_apart s.db i log _ [FsOp.unlink name] sound backed (single _ notLive) (single _ notWork)
  have kept : Throughout (Guarded serial good empty s.db s.garbage) (applyAll s.disk [FsOp.unlink name]) s.todo := by
    refine throughout_swap _ s.disk [FsOp.unlink name] s.todo swaps (fun done part guarded => ?_) inv.guarded
    rcases guarded with ⟨blank, rest⟩ | ⟨m, text, ssts, committed, fence, holds⟩
    · exact .inl ⟨blank_unlink _ name blank, rest⟩
    · obtain ⟨tables, vlog⟩ := collect_spares good empty s name inv marked done part m text ssts committed fence
      refine .inr
        ⟨m, text, ssts, throughout_last _ _ _ (committed_apart _ m text ssts _ committed (single _ ?_)), fence, ?_⟩
      · rw [neededFiles, List.mem_cons, List.mem_cons, not_or, not_or]
        exact ⟨fun same => notOther (by rw [same]; decide), fun same => vlog same.symm, tables⟩
      · have wal : name ∉ walFiles := fun inside => notOther (List.mem_append_left _ inside)
        rw [apart_frame walFiles _ _ (single _ wal) walName (by decide),
          apart_frame walFiles _ _ (single _ wal) flushingWalName (by decide)]
        exact holds
  have fewer : ∀ other, other ∈ s.garbage.filter (fun other => decide (other ≠ name)) → other ∈ s.garbage :=
    fun other member =>
    (List.mem_filter.mp member).1
  refine { inv with
    state := ⟨i, log, sound, ?_⟩
    valid := apply_valid s.disk (FsOp.unlink name) inv.valid
    names := unlink_names s.disk name inv.names
    guarded := ?_
    away := fun op member other touched inside => inv.away op member other touched (fewer other inside)
    stale := fun other member => ?_ }
  · have swapped := apply_all_swap s.disk [FsOp.unlink name] s.todo swaps
    rw [apply_all_cons, apply_all_nil] at swapped
    rw [swapped]
    exact backedNext
  · refine throughout_imp _ _ _ _ kept (fun d guarded => ?_)
    rcases guarded with ⟨blank, rest⟩ | ⟨m, text, ssts, committed, fence, holds⟩
    · exact .inl ⟨blank, rest⟩
    · exact .inr ⟨m, text, ssts, committed,
        ⟨fun entry member =>
          ⟨(fence.tables entry member).1, fun inside => (fence.tables entry member).2 (fewer _ inside)⟩,
          fun inside => fence.vlog (fewer _ inside), fence.named, fence.gen⟩, holds⟩
  · rcases List.mem_append.mp member with garbage | doomed
    · exact inv.stale other (List.mem_append_left _ (fewer other garbage))
    · exact inv.stale other (List.mem_append_right _ (List.mem_filter.mp doomed).1)

theorem fence_between (db final : DB) (i : Nat) (log : ValueLog) (garbage : List Bytes) (seq : Nat)
    (numbered : Numbered db) (small : db.nextSeq < 2 ^ 64) (traces : Traces db final)
    (soundFinal : Sound serial final i log) (numberedFinal : Numbered final) (smallFinal : final.nextSeq < 2 ^ 64)
    (stale : ∀ name ∈ garbage, Stale db name) (gen : final.flusher ≠ none → db.currentGen = final.currentGen) :
    Fence final garbage (manifestAt seq db) := by
  have spared : ∀ name ∈ liveFiles db, name ∉ garbage := fun name live inside =>
    stale_not_live db numbered small name (stale name inside) live
  have entries : ∀ entry ∈ (manifestAt seq db).tables, ∃ table ∈ db.sstables, entry.name = table.name := by
    intro entry member
    obtain ⟨table, inside, rfl⟩ := List.mem_map.mp member
    exact ⟨table, inside, rfl⟩
  refine ⟨fun entry member => ?_, spared _ (by simp [liveFiles, manifestAt, manifestOf]), fun entry member => ?_, gen⟩
  · obtain ⟨table, inside, same⟩ := entries entry member
    have fresh := table_seq_fresh db numbered table inside
    have unheld : tableSeq table ∉ workSeqs final := by
      intro held
      rcases traces.work _ held with old | above
      · have whole := numbered.distinct
        rw [reservedSeqs, List.append_assoc] at whole
        exact (List.nodup_append.mp whole).2.2 _ (List.mem_map_of_mem inside) _ old rfl
      · omega
    refine ⟨?_, spared _ ?_⟩
    · exact unheld_not_work final i log soundFinal numberedFinal smallFinal (tableSeq table)
        (Nat.lt_trans fresh small) unheld _ (by rw [same, tableFiles, ← numbered.named table inside]; simp)
    · rw [same]
      exact List.mem_cons_of_mem _ (List.mem_cons_of_mem _ (List.mem_map_of_mem inside))
  · obtain ⟨table, inside, same⟩ := entries entry member
    exact ⟨tableSeq table, same.trans (numbered.named table inside)⟩

theorem phased_guarded (good : Good) (empty : Prop) (db next final : DB) (log later : ValueLog) (wal : List DiskOp)
    (garbage : List Bytes) (disk : Disk Bytes) (ops : List DiskOp) (numbered : Numbered next)
    (onWal : ∀ op ∈ wal, ∀ name ∈ op.touches, name ∈ walFiles) (phased : Phased serial db log next later wal disk ops)
    (fenceOld : ∀ seq, Fence final garbage (manifestAt seq db))
    (fenceNew : ∀ seq, Fence final garbage (manifestAt seq next))
    (old : ∀ seq text, text <+: log.file →
      good (disk walName) (disk flushingWalName) (manifestAt seq db) text (db.sstables.map Table.sst))
    (new : ∀ seq text, text <+: later.file →
      Throughout
      (fun d => good (d walName) (d flushingWalName) (manifestAt seq next) text (next.sstables.map Table.sst)) disk
      wal) :
    Throughout (Guarded serial good empty final garbage) disk ops := by
  obtain ⟨work, rfl, apart, during, last⟩ := phased
  refine (throughout_append _ _ _ _).mpr ⟨fun done part => ?_, fun done part => ?_⟩
  · have fewer : Apart walFiles done := fun op member => apart op (part.subset member)
    have sameWal := apart_frame _ disk done fewer walName (by decide)
    have sameFlushing := apart_frame _ disk done fewer flushingWalName (by decide)
    rcases during done part with ⟨seq, text, _, known, committed⟩ | ⟨seq, text, _, known, committed⟩
    · exact .inr ⟨_, text, _, committed, fenceOld seq, by rw [sameWal, sameFlushing]; exact old seq text known⟩
    · exact .inr ⟨_, text, _, committed, fenceNew seq, by
        rw [sameWal, sameFlushing]; exact new seq text known [] List.nil_prefix⟩
  · have files : ∀ op ∈ done, ∀ name ∈ op.touches, name ∈ walFiles := fun op member => onWal op (part.subset member)
    have committed :=
      throughout_last _ _ _ (committed_db_apart next later _ done last (wal_files_live next numbered done files))
    obtain ⟨seq, text, _, known, committed⟩ := committed
    have swapped : ∀ name ∈ walFiles, applyAll (applyAll disk work) done name = applyAll disk done name := by
      intro name inside
      rw [apply_all_swap disk work done (fun op member other there touched mine theirs =>
        apart op member touched mine (files other there touched theirs))]
      exact apart_frame _ _ work apart name inside
    refine .inr ⟨_, text, _, committed, fenceNew seq, ?_⟩
    rw [swapped walName (by decide), swapped flushingWalName (by decide)]
    exact new seq text known done part

theorem move_gen (cfg : Config) (db next : DB) (i : Nat) (log : ValueLog) (kind : Kind) (ops : List DiskOp)
    (garbage : List Bytes) (sound : Sound serial db i log) (move : Move cfg found db kind next ops garbage) :
    next.currentGen = db.currentGen ∨ next.currentGen = db.currentGen + 1 ∧ next.flusher = none ∧
    kind = .collected := by
  cases move with
  | collected merged relocated opened later vlogOps bytes sst free quiet flushed merges opens relocates built =>
      exact .inr ⟨rfl, sound.idle free, rfl⟩
  | picked picked job noJob picks =>
      obtain ⟨⟨seq, rfl, _⟩, _⟩ := pick_job_fresh cfg db picked job picks
      exact .inl rfl
  | merged worker job later running unmerged merges => cases worker <;> exact .inl rfl
  | mergeIo worker job op rest outputs running building => cases worker <;> exact .inl rfl
  | installed worker job outputs running complete =>
      have same : (installJob db job outputs).currentGen = db.currentGen := by
        unfold installJob
        split
        · rfl
        · split <;> rfl
      cases worker <;> exact .inl same
  | _ => exact .inl rfl

-- What a move of a section has to meet in the state it starts from.
structure Meets (serial : Prop) (found : Bytes) (disk : Disk Bytes) (db next : DB) (kind : Kind) : Prop where
  locked : kind ≠ .worked
  calm : serial → kind.Picks → inFlight db = []
  listable : Listable next
  finds : next.currentGen ≠ db.currentGen →
    found = (fileData disk (vlogName next.currentGen)).getD [] ∧ db.currentGen.toNat + 1 < 2 ^ 32

theorem gen_above (db next : DB) (up : next.currentGen = db.currentGen + 1) (room : db.currentGen.toNat + 1 < 2 ^ 32) :
    db.currentGen.toNat < next.currentGen.toNat := by
  have value : (db.currentGen + 1).toNat = db.currentGen.toNat + 1 := by
    rw [UInt32.toNat_add]
    exact Nat.mod_eq_of_lt room
  rw [up, value]
  exact Nat.lt_succ_self _

-- What a locked move gives, apart from the course of its steps.
structure Moved (serial : Prop) (db : DB) (log : ValueLog) (next : DB) (j : Nat) (later : ValueLog) (kind : Kind)
    (disk : Disk Bytes) (ops : List DiskOp) (garbage : List Bytes) : Prop where
  sound : Sound serial next j later
  backed : Backed serial next later (applyAll disk ops)
  phased : Phased serial db log next later kind.walOps disk ops
  traces : Traces db next
  gens : db.currentGen.toNat ≤ next.currentGen.toNat
  flusher : next.flusher ≠ none → db.currentGen = next.currentGen
  numbered : Numbered next
  bounds : LevelBounds next
  known : Known next
  touches : ∀ op ∈ ops, ∀ name ∈ op.touches, Touch db next name
  stale : ∀ name ∈ garbage, Stale next name

theorem locked_moved (cfg : Config) (db next : DB) (i : Nat) (log : ValueLog) (kind : Kind) (disk : Disk Bytes)
    (ops : List DiskOp) (garbage : List Bytes) (sound : Sound serial db i log) (backed : Backed serial db log disk)
    (numbered : Numbered db) (bounds : LevelBounds db) (known : Known db) (valid : disk.Valid)
    (move : Move cfg found db kind next ops garbage) (meets : Meets serial found disk db next kind) :
    ∃ j later, Moved serial db log next j later kind disk ops garbage := by
  obtain ⟨j, later, soundNext, backedNext, phased⟩ :=
    move_advances cfg db i log disk next kind ops garbage sound numbered bounds
    move meets.calm valid backed meets.listable (fun different => (meets.finds different).1)
  have small := meets.listable.1
  have up : next.currentGen ≠ db.currentGen → db.currentGen.toNat < next.currentGen.toNat := by
    intro different
    rcases move_gen cfg db next i log kind ops garbage sound move with same | ⟨up, _⟩
    · exact absurd same different
    · exact gen_above db next up (meets.finds different).2
  refine ⟨j, later, soundNext, backedNext, phased,
    move_traces cfg db next i log kind ops garbage sound numbered move small, ?_, ?_,
    move_numbered cfg db next i log kind ops garbage sound numbered move small,
    move_level_bounds cfg db next i log kind ops garbage sound bounds move,
    move_known cfg db next i log kind ops garbage sound numbered known move small,
    locked_touches cfg db next i log kind ops garbage sound move meets.locked,
    move_garbage_stale cfg db next i log kind ops garbage sound numbered known move small up⟩
  · by_cases same : next.currentGen = db.currentGen
    · rw [same]
    · exact Nat.le_of_lt (up same)
  · intro flushing
    rcases move_gen cfg db next i log kind ops garbage sound move with same | ⟨_, none, _⟩
    · exact same.symm
    · exact absurd none flushing

theorem traces_refl (db : DB) : Traces db db := traces_same db db rfl rfl (Nat.le_refl _)

section Sections

variable (good good' : Good) (empty empty' : Prop) (s : Sys) (next : DB) (kind : Kind) (ops : List DiskOp)
variable (garbage : List Bytes)

theorem first_inv (idle : s.todo = []) (inv : SysInv serial good empty s)
    (move : Move s.cfg found s.db kind next ops garbage) (meets : Meets serial found s.disk s.db next kind)
    (old : ∀ i log, Sound serial s.db i log → ∀ seq text, text <+: log.file →
      good' (s.disk walName) (s.disk flushingWalName) (manifestAt seq s.db) text (s.db.sstables.map Table.sst))
    (new : ∀ j later, Sound serial next j later → ∀ seq text, text <+: later.file →
      Throughout
      (fun d => good' (d walName) (d flushingWalName) (manifestAt seq next) text (next.sstables.map Table.sst))
      s.disk kind.walOps) :
    SysInv serial good' empty' ⟨s.cfg, next, s.disk, ops, garbage, s.garbage ++ s.doomed⟩ := by
  obtain ⟨i, log, sound, backed⟩ := inv.state
  rw [idle, apply_all_nil] at backed
  obtain ⟨j, later, moved⟩ :=
    locked_moved s.cfg s.db next i log kind s.disk ops garbage sound backed inv.numbered inv.bounds
    inv.known inv.valid move meets
  have small := inv.listable.1
  have smallNext := meets.listable.1
  have stale : ∀ name ∈ s.garbage ++ s.doomed, Stale next name := fun name member =>
    stale_kept s.db next moved.traces moved.gens name (inv.stale name member)
  exact
    { state := ⟨j, later, moved.sound, moved.backed⟩
      numbered := moved.numbered
      bounds := moved.bounds
      listable := meets.listable
      known := moved.known
      valid := inv.valid
      names := inv.names
      touches := fun op member name touched =>
        touch_store_name s.db next small name (moved.touches op member name touched)
      guarded := phased_guarded good' empty' s.db next next log later kind.walOps _ s.disk ops moved.numbered
        (wal_ops_files kind)
        moved.phased
        (fun seq => fence_between s.db next j later _ seq inv.numbered small moved.traces moved.sound
          moved.numbered smallNext
          inv.stale moved.flusher)
        (fun seq => fence_between next next j later _ seq moved.numbered smallNext (traces_refl next)
          moved.sound moved.numbered
          smallNext stale (fun _ => rfl))
        (old i log sound) (new j later moved.sound)
      apart := fun op member name touched =>
        touch_not_work s.db next j later inv.numbered moved.sound moved.numbered smallNext
        moved.traces.counter name (moved.touches op member name touched)
      away := fun op member name touched inside => touch_not_stale s.db next small moved.gens name
        (moved.touches op member name touched) (inv.stale name inside)
      stale := fun name member => (List.mem_append.mp member).elim (stale name) (moved.stale name) }

theorem second_inv (plain : kind.Plain) (inv : SysInv serial good empty s)
    (move : Move s.cfg found s.db kind next ops garbage)
    (meets : Meets serial found (applyAll s.disk s.todo) s.db next kind)
    (old : ∀ i log, Sound serial s.db i log → ∀ seq text, text <+: log.file → good (applyAll s.disk s.todo walName)
      (applyAll s.disk s.todo flushingWalName) (manifestAt seq s.db) text (s.db.sstables.map Table.sst))
    (new : ∀ j later, Sound serial next j later → ∀ seq text, text <+: later.file →
      Throughout
      (fun d => good (d walName) (d flushingWalName) (manifestAt seq next) text (next.sstables.map Table.sst))
      (applyAll s.disk s.todo) kind.walOps) :
    SysInv serial good empty { s with db := next, todo := s.todo ++ ops, doomed := s.doomed ++ garbage } := by
  obtain ⟨i, log, sound, backed⟩ := inv.state
  obtain ⟨j, later, moved⟩ := locked_moved s.cfg s.db next i log kind _ ops garbage sound backed inv.numbered inv.bounds
    inv.known (apply_all_valid _ _ inv.valid) move meets
  have small := inv.listable.1
  have smallNext := meets.listable.1
  have files := plain_work_files s.cfg s.db next i log kind ops garbage sound move plain
  have stale : ∀ name ∈ s.garbage ++ s.doomed, Stale next name := fun name member =>
    stale_kept s.db next moved.traces moved.gens name (inv.stale name member)
  have inGarbage : ∀ name ∈ s.garbage, name ∈ s.garbage ++ s.doomed := fun name => List.mem_append_left _
  have flusher : next.flusher ≠ none → s.db.flusher ≠ none := by
    cases move <;> first | exact plain.elim | exact id
  have early : Throughout (Guarded serial good empty next s.garbage) s.disk s.todo := by
    refine throughout_imp _ _ _ _ inv.guarded (fun d guarded => ?_)
    rcases guarded with ⟨blank, calm, nothing⟩ | ⟨m, text, ssts, committed, fence, holds⟩
    · exact .inl ⟨blank, by rw [files]; exact calm, nothing⟩
    · exact .inr ⟨m, text, ssts, committed, ⟨by rw [files]; exact fence.tables, fence.vlog, fence.named, fun flushing =>
        (fence.gen (flusher flushing)).trans (moved.flusher flushing)⟩, holds⟩
  have late := phased_guarded good empty s.db next next log later kind.walOps s.garbage
    (applyAll s.disk s.todo) ops moved.numbered (wal_ops_files kind) moved.phased
    (fun seq => fence_between s.db next j later _ seq inv.numbered small moved.traces moved.sound
      moved.numbered smallNext
      (fun name inside => inv.stale name (inGarbage name inside)) moved.flusher)
    (fun seq => fence_between next next j later _ seq moved.numbered smallNext (traces_refl next)
      moved.sound moved.numbered
      smallNext (fun name inside => stale name (inGarbage name inside)) (fun _ => rfl))
    (old i log sound) (new j later moved.sound)
  refine
    { state := ⟨j, later, moved.sound, ?_⟩
      numbered := moved.numbered
      bounds := moved.bounds
      listable := meets.listable
      known := moved.known
      valid := inv.valid
      names := inv.names
      touches := fun op member name touched => (List.mem_append.mp member).elim
        (fun front => inv.touches op front name touched)
        (fun back => touch_store_name s.db next small name (moved.touches op back name touched))
      guarded := (throughout_append _ _ _ _).mpr ⟨early, late⟩
      apart := (apart_append _ _ _).mpr ⟨by rw [files]; exact inv.apart, fun op member name touched =>
        touch_not_work s.db next j later inv.numbered moved.sound moved.numbered smallNext moved.traces.counter name
          (moved.touches op member name touched)⟩
      away := (apart_append _ _ _).mpr ⟨inv.away, fun op member name touched inside =>
        touch_not_stale s.db next small moved.gens name (moved.touches op member name touched)
          (inv.stale name (inGarbage name inside))⟩
      stale := fun name member => ?_ }
  · rw [apply_all_append]
    exact moved.backed
  · rw [← List.append_assoc] at member
    exact (List.mem_append.mp member).elim (stale name) (moved.stale name)

end Sections

end Tombstash
