import Tombstash.Power

set_option autoImplicit false

namespace Tombstash

variable {found : Bytes}

-- When the steps that the flusher has left are done, every loss of power leaves
-- its table.
def TableRest (w : Volume Bytes) (db : DB) : Prop :=
  ∀ job ops sst, db.flusher = some job → job.built = some (ops, sst) →
    (∀ op ∈ ops, op.Keeps Target) ∧ (runAll w ops).Firm (sstName job.seq)

-- A store between two sections.
structure Rest (w : Volume Bytes) (db : DB) (split : Split) : Prop where
  firm : FirmFiles db w
  logs : LogsRest w db.hasFlushing split
  table : TableRest w db

theorem no_flusher_table (w : Volume Bytes) (db : DB) (none : db.flusher = none) : TableRest w db := by
  intro job ops sst running
  rw [none] at running
  cases running

theorem live_not_manifest (db : DB) (numbered : Numbered db) (name : Bytes)
    (live : name ∈ vlogName db.currentGen :: db.sstables.map Table.name) :
    name ≠ manifestName ∧ name ≠ manifestTmpName := by
  rcases List.mem_cons.mp live with rfl | inTables
  · exact ⟨ne_of_kind _ _ (by simp), ne_of_kind _ _ (by simp)⟩
  · obtain ⟨table, inside, rfl⟩ := List.mem_map.mp inTables
    rw [numbered.named table inside]
    exact ⟨ne_of_kind _ _ (by simp), ne_of_kind _ _ (by simp)⟩

theorem manifest_ops_off (data : ManifestData) (name : Bytes) (notManifest : name ≠ manifestName)
    (notTmp : name ≠ manifestTmpName) :
    ∀ op ∈ manifestOps data, name ∉ op.touches := by
  intro op member touched
  rcases manifest_files data op member name touched with rfl | rfl
  · exact notManifest rfl
  · exact notTmp rfl

section Commit

variable (cfg : Config) (db next : DB) (i j : Nat) (log later : ValueLog) (split after : Split)
    (w : Volume Bytes) (busy : Bool)
variable (work : List DiskOp) (p : Nat)

theorem named_firm (firm : FirmFiles db w) (gen : next.currentGen = db.currentGen)
    (tables : ∀ table ∈ next.sstables, w.Firm table.name) :
    ∀ name ∈ vlogName next.currentGen :: next.sstables.map Table.name, w.Firm name := by
  intro name live
  rcases List.mem_cons.mp live with rfl | inTables
  · rw [gen]
    exact firm _ (by simp [liveFiles])
  · obtain ⟨table, inside, rfl⟩ := List.mem_map.mp inTables
    exact tables table inside

theorem commit_firm (proper : w.Proper) (numbered : Numbered next)
    (firm : ∀ name ∈ vlogName next.currentGen :: next.sstables.map Table.name, w.Firm name) :
    FirmFiles next (runAll w (writeManifestLocked next)) ∧
    ∀ name, (runAll w (writeManifestLocked next)).Settled name := by
  obtain ⟨manifestFirm, _, settled⟩ :=
    replace_firm w manifestTmpName manifestName (manifestBytes (manifestOf next)) (by decide)
  rw [← manifest_replaces] at manifestFirm settled
  refine ⟨fun name live => ?_, settled⟩
  rcases List.mem_cons.mp live with rfl | needed
  · exact manifestFirm
  · obtain ⟨notManifest, notTmp⟩ := live_not_manifest next numbered name needed
    exact firm_run_all _ _ proper name (firm name needed) (manifest_ops_off _ name notManifest notTmp)

-- The old MANIFEST or the new one, with the tables that it names. The logs are
-- as they were.
theorem commit_shows (tidy : w.Tidy Target) (numbered : Numbered db) (numberedNext : Numbered next)
    (firm : FirmFiles db w) (firmNext : ∀ name ∈ vlogName next.currentGen :: next.sstables.map Table.name, w.Firm name)
    (old : CommittedDb True db log w.disk)
    (new : CommittedDb True next later (applyAll w.disk (writeManifestLocked next))) :
    Always (fun u => u.Leaves (fun d => ∃ earlier, w.Shows earlier ∧ d walName = earlier walName ∧
      d flushingWalName = earlier flushingWalName ∧ (CommittedDb True db log d ∨ CommittedDb True next later d)))
      w (writeManifestLocked next) := by
  intro done part d shown
  have during :=
    replace_shows w manifestTmpName manifestName (manifestBytes (manifestOf next)) tidy manifest_tmp_plain (.inl rfl)
  obtain ⟨_, manifestDisk, _⟩ :=
    replace_firm w manifestTmpName manifestName (manifestBytes (manifestOf next)) (by decide)
  rw [← manifest_replaces] at during manifestDisk
  obtain ⟨earlier, before, off, atManifest⟩ := during done part d shown
  refine ⟨earlier, before, off walName (by decide) (by decide), off flushingWalName (by decide) (by decide), ?_⟩
  rcases atManifest with stays | commits
  · refine .inl
      (agree_committed db log d earlier (fun name live => ?_) (firm_committed w db log firm old earlier before))
    rcases List.mem_cons.mp live with rfl | needed
    · exact stays
    · obtain ⟨notManifest, notTmp⟩ := live_not_manifest db numbered name needed
      exact off name notTmp notManifest
  · refine .inr (agree_committed next later d _ (fun name live => ?_) new)
    rcases List.mem_cons.mp live with rfl | needed
    · rw [commits, writeManifestLocked, ← run_all_disk _ tidy.proper, manifestDisk]
    · obtain ⟨notManifest, notTmp⟩ := live_not_manifest next numberedNext name needed
      rw [off name notTmp notManifest, firm_shows _ name (firmNext name needed) earlier before, writeManifestLocked,
        apply_all_frame _ _ name (manifest_ops_off _ name notManifest notTmp)]

theorem commit_recovers (tidy : w.Tidy Target) (logs : LogsRest w busy split) (firm : Always (FirmFiles db) w work)
    (keeps : ∀ op ∈ work, op.Keeps Target) (apart : Apart walFiles work) (held : InvAt cfg db split)
    (heldNext : InvAt cfg next after) (sound : Sound True db i log) (soundNext : Sound True next j later)
    (old : Throughout (CommittedDb True db log) w.disk work) (gen : next.currentGen = db.currentGen)
    (tables : ∀ table ∈ next.sstables, (runAll w work).Firm table.name)
    (new : CommittedDb True next later (applyAll w.disk (work ++ writeManifestLocked next)))
    (same : after.all = split.all) (low : split.done.length ≤ after.done.length) (bound : p ≤ split.all.length)
    (fits : ∀ write ∈ split.all, Logged (writeRecord write)) :
    Always (fun u => u.Leaves (Recovering split.all p)) w (work ++ writeManifestLocked next) ∧
      FirmFiles next (runAll w (work ++ writeManifestLocked next)) ∧
      ∀ name, (runAll w (work ++ writeManifestLocked next)).Settled name := by
  have proper := run_all_proper w tidy.proper work
  have tidyMiddle := tidy_run_all w work tidy keeps
  have logsMiddle := rest_logs_apart w busy split tidy logs work keeps apart
  have firmMiddle := firm work List.prefix_rfl
  have firmNext := named_firm db next _ firmMiddle gen tables
  have reaches : after.done.length ≤ split.all.length := by
    rw [← same, length_all]
    omega
  have working : Always (fun u => u.Leaves (Recovering split.all p)) w work := by
    refine always_recovers cfg db split i log held sound fits p w tidy.proper work firm old (fun done part => ?_)
    have logsThere := rest_logs_apart w busy split tidy logs done (fun op member => keeps op (part.subset member))
      (fun op member => apart op (part.subset member))
    exact rest_holding _ busy split logsThere p _ (Nat.le_refl _) (done_le_all split) bound
  have oldMiddle := throughout_last _ _ _ old
  rw [← run_all_disk w tidy.proper] at oldMiddle
  rw [apply_all_append, ← run_all_disk w tidy.proper] at new
  refine ⟨(always_append _ _ _ _).mpr ⟨working, fun done part d shown => ?_⟩, ?_⟩
  · obtain ⟨earlier, before, sameWal, sameFlushing, committed⟩ :=
      commit_shows db next log later _ tidyMiddle held.numbered
      heldNext.numbered firmMiddle firmNext oldMiddle new done part d shown
    have shows := (logsMiddle.shown earlier before).1
    rw [← sameWal, ← sameFlushing] at shows
    have replays : ∀ base, split.done.length ≤ base → base ≤ split.all.length →
        Replays split.all p base (d walName) (d flushingWalName) := fun base above below =>
      logs_replay_all split _ _ shows p base above below bound
    rcases committed with stays | commits
    · exact committed_recovers cfg db split i log held sound fits p d stays
        (replays _ (Nat.le_refl _) (Nat.le_trans low reaches))
    · rw [← same] at fits replays ⊢
      exact committed_recovers cfg next after j later heldNext soundNext fits p d commits
        (replays _ low (by rw [same]; exact reaches))
  · rw [run_all_append]
    exact commit_firm next _ proper heldNext.numbered firmNext

end Commit

-- What a move does under a loss of power. While the flusher is at work a section
-- only writes to the active log.
structure Weathered (w : Volume Bytes) (next : DB) (after : Split) (p : Nat) (ops : List DiskOp) : Prop where
  safe : Always (fun u => u.Leaves (Recovering after.all p)) w ops
  rest : Rest (runAll w ops) next after
  keeps : ∀ op ∈ ops, op.Keeps Target
  calm : next.flusher ≠ none → (∀ op ∈ ops, op.Writes ∧ op.touches = [walName]) ∧
    Always (fun u => FirmFiles next u ∧ Holding after.all p after.done.length u) w ops

theorem phased_commits {serial : Prop} (db next : DB) (log later : ValueLog) (disk : Disk Bytes)
    (work wal : List DiskOp) (phased : Phased serial db log next later wal disk (work ++ wal)) :
    Apart walFiles work ∧ CommittedDb serial next later (applyAll disk work) := by
  obtain ⟨other, same, apart, _, committed⟩ := phased
  rw [List.append_cancel_right same]
  exact ⟨apart, committed⟩

theorem flush_ops_off_wal {serial : Prop} (disk : Disk Bytes) (gen : UInt32) (log : ValueLog) (job : FlushJob)
    (ops : List DiskOp) (sst : SSTable) (backed : FlushBacked serial disk gen log job)
    (built : job.built = some (ops, sst)) :
    ∀ op ∈ ops, walName ∉ op.touches := by
  intro op member touched
  rcases backed.touches ops sst built op member with rfl | files
  · exact absurd (List.mem_singleton.mp touched) (ne_of_kind _ _ (by simp))
  · exact absurd (table_file_first _ _ (files walName touched)) (by decide)

section Moves

variable (cfg : Config) (db next : DB) (i j : Nat) (log later : ValueLog) (split : Split) (w : Volume Bytes) (p : Nat)
variable (tidy : w.Tidy Target) (rest : Rest w db split) (sound : Sound True db i log)
    (backed : Backed True db log w.disk)
variable (soundNext : Sound True next j later) (held : InvAt cfg db split) (bound : p ≤ split.all.length)

include rest soundNext bound in
theorem still_weathers (heldNext : InvAt cfg next split) (committed : CommittedDb True next later w.disk)
    (tables : next.sstables = db.sstables) (gen : next.currentGen = db.currentGen)
    (slot : next.hasFlushing = db.hasFlushing) (table : TableRest w next)
    (fits : ∀ write ∈ split.all, Logged (writeRecord write)) : Weathered w next split p [] := by
  have firm := firm_files_same db next w tables gen rest.firm
  have holding := rest_holding w _ split rest.logs p _ (Nat.le_refl _) (done_le_all split) bound
  refine ⟨always_nil _ _ (fun d shown => ?_), ⟨firm, by rw [slot]; exact rest.logs, table⟩, List.forall_mem_nil _,
    fun _ => ⟨List.forall_mem_nil _, always_nil _ _ ⟨firm, holding⟩⟩⟩
  exact committed_recovers cfg next split j later heldNext soundNext fits p d
    (firm_committed w next later firm committed d shown) (holding d shown)

include tidy rest backed soundNext bound in
theorem wrote_weathers (write : Write) (heldNext : InvAt cfg next ((Kind.wrote write true).shift split))
    (committed : CommittedDb True next later w.disk) (tables : next.sstables = db.sstables)
    (gen : next.currentGen = db.currentGen) (slot : next.hasFlushing = db.hasFlushing)
    (flusher : next.flusher = db.flusher) (settled : w.Settled walName)
    (fits : ∀ write' ∈ ((Kind.wrote write true).shift split).all, Logged (writeRecord write')) :
    Weathered w next ((Kind.wrote write true).shift split) p (Kind.wrote write true).walOps := by
  have firm := firm_files_same db next w tables gen rest.firm
  have writes : ∀ op ∈ (Kind.wrote write true).walOps, op.Writes ∧ op.touches = [walName] := by
    intro op member
    simp only [Kind.walOps, if_true, List.cons_append, List.nil_append, List.mem_cons, List.not_mem_nil,
      or_false] at member
    rcases member with rfl | rfl <;> exact ⟨trivial, rfl⟩
  obtain ⟨logs, holding⟩ := logs_wrote w _ split tidy rest.logs settled write p bound
  obtain ⟨safe, firmAll⟩ :=
    wal_recovers cfg next _ j later heldNext soundNext fits p w tidy.proper heldNext.numbered firm committed _ holding
  refine ⟨safe, ⟨firmAll _ List.prefix_rfl, by rw [slot]; exact logs, fun job ops sst running built => ?_⟩,
    wal_ops_keep _, fun _ => ⟨writes, fun done part => ⟨firmAll done part, holding done part⟩⟩⟩
  rw [flusher] at running
  obtain ⟨keeps, firmTable⟩ := rest.table job ops sst running built
  have off := flush_ops_off_wal w.disk db.currentGen log job ops sst (backed.flush job running) built
  refine ⟨keeps, ?_⟩
  rw [← writes_swap w tidy.proper ops _ (fun op member => (writes op member).1)
    (fun op member other inside name touched => ?_)]
  · exact run_all_keeps _ _ (fun u => u.Firm (sstName job.seq)) (run_all_proper w tidy.proper ops) firmTable
      (fun op member u _ now => writes_firm u op (writes op member).1 _ now)
  · rw [(writes op member).2, List.mem_singleton] at touched
    rw [touched]
    exact off other inside

include tidy rest soundNext bound in
theorem sealed_weathers (heldNext : InvAt cfg next (Kind.sealed.shift split))
    (committed : CommittedDb True next later w.disk) (tables : next.sstables = db.sstables)
    (gen : next.currentGen = db.currentGen) (slot : db.hasFlushing = false) (taken : next.hasFlushing = true)
    (idle : next.flusher = none) (filled : split.active ≠ []) (none : split.sealed = [])
    (fits : ∀ write ∈ (Kind.sealed.shift split).all, Logged (writeRecord write)) :
    Weathered w next (Kind.sealed.shift split) p Kind.sealed.walOps := by
  have firm := firm_files_same db next w tables gen rest.firm
  have before := rest.logs
  rw [slot] at before
  obtain ⟨logs, holding⟩ := logs_sealed w split tidy before filled none p bound
  obtain ⟨safe, firmAll⟩ :=
    wal_recovers cfg next _ j later heldNext soundNext fits p w tidy.proper heldNext.numbered firm committed _ holding
  exact ⟨safe, ⟨firmAll _ List.prefix_rfl, by rw [taken]; exact logs, no_flusher_table _ next idle⟩, wal_ops_keep _,
    fun running => absurd idle running⟩

theorem committed_weathers (kind : Kind) (busy : Bool) (work : List DiskOp) (logs : LogsRest w busy split)
    (tidy : w.Tidy Target) (firm : Always (FirmFiles db) w work) (keeps : ∀ op ∈ work, op.Keeps Target)
    (held : InvAt cfg db split) (heldNext : InvAt cfg next (kind.shift split)) (sound : Sound True db i log)
    (soundNext : Sound True next j later) (old : Throughout (CommittedDb True db log) w.disk work)
    (phased : Phased True db log next later kind.walOps w.disk (work ++ writeManifestLocked next ++ kind.walOps))
    (gen : next.currentGen = db.currentGen) (tables : ∀ table ∈ next.sstables, (runAll w work).Firm table.name)
    (idle : next.flusher = none) (same : (kind.shift split).all = split.all)
    (low : split.done.length ≤ (kind.shift split).done.length) (bound : p ≤ split.all.length)
    (fits : ∀ write ∈ split.all, Logged (writeRecord write))
    (logsAfter : ∀ u : Volume Bytes, u.Tidy Target → LogsRest u busy split → (∀ name, u.Settled name) →
      u.disk flushingWalName = w.disk flushingWalName → LogsRest (runAll u kind.walOps) next.hasFlushing
      (kind.shift split) ∧ Always (Holding (kind.shift split).all p (kind.shift split).done.length) u kind.walOps) :
    Weathered w next (kind.shift split) p (work ++ writeManifestLocked next ++ kind.walOps) := by
  obtain ⟨apart, committed⟩ := phased_commits db next log later w.disk _ _ phased
  have apartWork : Apart walFiles work := ((apart_append _ _ _).mp apart).1
  obtain ⟨safe, firmNext, settled⟩ :=
    commit_recovers cfg db next i j log later split (kind.shift split) w busy work p tidy logs firm keeps
    apartWork held heldNext sound soundNext old gen tables committed same low bound fits
  have keepsAll : ∀ op ∈ work ++ writeManifestLocked next, op.Keeps Target := by
    intro op member
    rcases List.mem_append.mp member with early | manifest
    · exact keeps op early
    · exact replace_keeps _ _ _ manifest_tmp_plain (.inl rfl) op manifest
  have tidyNext := tidy_run_all w _ tidy keepsAll
  rw [← run_all_disk w tidy.proper] at committed
  obtain ⟨logsEnd, holding⟩ :=
    logsAfter _ tidyNext (rest_logs_apart w busy split tidy logs _ keepsAll apart) settled (by
    rw [run_all_disk w tidy.proper]
    exact apart_frame walFiles _ _ apart _ (by decide))
  rw [← same] at fits
  obtain ⟨safeEnd, firmEnd⟩ :=
    wal_recovers cfg next _ j later heldNext soundNext fits p _ tidyNext.proper heldNext.numbered firmNext committed
    kind holding
  refine ⟨?_, ⟨?_, ?_, no_flusher_table _ next idle⟩, ?_, fun running => absurd idle running⟩
  · rw [← same] at safe
    exact (always_append _ _ _ _).mpr ⟨safe, safeEnd⟩
  · rw [run_all_append]
    exact firmEnd _ List.prefix_rfl
  · rw [run_all_append]
    exact logsEnd
  · intro op member
    rcases List.mem_append.mp member with early | last
    · exact keepsAll op early
    · exact wal_ops_keep kind op last

end Moves

theorem separate_record_writes (cfg : Config) (log later : ValueLog) (rec stored : Record) (ops : List DiskOp)
    (done : separateRecord cfg log rec = .ok (later, stored, ops)) : ∀ op ∈ ops, op.Writes := by
  rw [separateRecord] at done
  split at done
  · obtain ⟨result, appended, done⟩ := bind_returns _ _ _ done
    cases done
    intro op member
    rw [List.mem_singleton.mp member]
    trivial
  · cases done
    exact List.forall_mem_nil _

theorem separate_all_writes (cfg : Config) (log later : ValueLog) (originals records : List Record) (ops : List DiskOp)
    (done : separateAll cfg log originals = .ok (later, records, ops)) : ∀ op ∈ ops, op.Writes := by
  induction originals generalizing log records ops with
  | nil =>
      cases done
      exact List.forall_mem_nil _
  | cons rec rest ih =>
      rw [separateAll] at done
      obtain ⟨⟨middle, stored, front⟩, first, done⟩ := bind_returns _ _ _ done
      obtain ⟨⟨last, others, back⟩, second, done⟩ := bind_returns _ _ _ done
      cases done
      intro op member
      rcases List.mem_append.mp member with early | late
      · exact separate_record_writes cfg log middle rec stored front first op early
      · exact ih middle others back second op late

section FlushWork

variable (db : DB) (i : Nat) (log later : ValueLog) (ops : List DiskOp) (bytes : Bytes) (w : Volume Bytes)
variable (sound : Sound True db i log) (appended : Appended log later ops) (writes : ∀ op ∈ ops, op.Writes)

include sound appended writes in
theorem flush_work_keeps : ∀ op ∈ flushWork log ops db.nextSeq bytes, op.Keeps Target := by
  intro op member
  rcases List.mem_append.mp member with first | rest
  · exact vlog_write_keeps db.currentGen op (writes op first) (by rw [appended.touches op first, sound.name])
  rcases List.mem_append.mp rest with second | third
  · rw [flush_work_sync db log ops sound.name op second]
    exact vlog_write_keeps db.currentGen _ trivial rfl
  · rw [table_replaces] at third
    exact replace_keeps _ _ _ (table_tmp_plain _) (.inr (.inr ⟨_, rfl⟩)) op third

include sound writes in
theorem flush_work_firm (numbered : Numbered db) (small : db.nextSeq < 2 ^ 64) (proper : w.Proper)
    (firm : FirmFiles db w) :
    Always (FirmFiles db) w (flushWork log ops db.nextSeq bytes) ∧
      (runAll w (flushWork log ops db.nextSeq bytes)).Firm (sstName db.nextSeq) := by
  refine ⟨firm_files_run w proper db _ firm (fun op member => ?_), ?_⟩
  · rcases List.mem_append.mp member with first | rest
    · exact .inl (writes op first)
    rcases List.mem_append.mp rest with second | third
    · rw [flush_work_sync db log ops sound.name op second]
      exact .inl trivial
    · refine .inr (fun name touched => ?_)
      exact unused_files_live db numbered small _ small (next_seq_unused db numbered).1 name
        (write_ops_touches db.nextSeq bytes op third name touched)
  · rw [flushWork, run_all_append, run_all_append, table_replaces]
    exact (replace_firm _ _ _ bytes (ne_of_kind _ _ (by simp))).1

end FlushWork

-- The moves of a store that only writes and flushes.
def Kind.Basic : Kind → Prop
  | .wrote _ sync => sync = true
  | .sealed | .flushed | .published | .internal | .idle => True
  | _ => False

section Basic

variable (cfg : Config) (db next : DB) (i j : Nat) (log later : ValueLog) (split : Split) (w : Volume Bytes)
    (p : Nat) (kind : Kind)
variable (ops : List DiskOp) (garbage : List Bytes)
variable (tidy : w.Tidy Target) (rest : Rest w db split) (sound : Sound True db i log)
    (backed : Backed True db log w.disk)
variable (held : InvAt cfg db split) (heldNext : InvAt cfg next (kind.shift split)) (bound : p ≤ split.all.length)
variable (journaled : Journaled db split w.disk) (fits : ∀ write ∈ (kind.shift split).all, Logged (writeRecord write))

include tidy rest sound backed held bound journaled in
theorem flushed_weathers (grown : ValueLog) (recs : List Record) (bytes : Bytes) (sst : SSTable) (valid : w.disk.Valid)
    (small : db.nextSeq < 2 ^ 64) (heldNext : InvAt cfg (flushedDb db i later sst) (Kind.flushed.shift split))
    (fits : ∀ write ∈ (Kind.flushed.shift split).all, Logged (writeRecord write))
    (soundNext : Sound True (flushedDb db i later sst) j grown)
    (phased : Phased True db log (flushedDb db i later sst) grown Kind.flushed.walOps w.disk
      (flushOps db log ops bytes (flushedDb db i later sst)))
    (filled : split.active ≠ []) (none : split.sealed = []) (free : db.hasFlushing = false)
    (separated : separateAll cfg log db.memtable.snapshot = .ok (later, recs, ops)) :
    Weathered w (flushedDb db i later sst) (Kind.flushed.shift split) p
    (flushOps db log ops bytes (flushedDb db i later sst)) := by
  obtain ⟨appended, _⟩ := separate_all_spec cfg log later _ recs ops sound.aligned separated
  have writes := separate_all_writes cfg log later _ recs ops separated
  have keeps := flush_work_keeps db i log later ops bytes sound appended writes
  obtain ⟨firm, firmTable⟩ :=
    flush_work_firm db i log ops bytes w sound writes held.numbered small tidy.proper rest.firm
  obtain ⟨synced, present⟩ := backed.vlog
  obtain ⟨notTable, notMerge⟩ := next_seq_unused db held.numbered
  obtain ⟨live, _, _⟩ :=
    table_ops_apart db db.nextSeq (flushWork log ops db.nextSeq bytes) held.numbered small small notTable notMerge
    (fun op member name touched =>
      (flush_work_touches db i log later ops bytes appended sound op member name touched).imp
      (fun same => ⟨_, same⟩) id)
  obtain ⟨old, _⟩ := flush_work_kept db i log w.disk later ops bytes appended sound synced present
    (valid _ _ present) backed.committed live
  have same : (Kind.flushed.shift split).all = split.all := by simp [Kind.shift, Split.all, none]
  have idle : (flushedDb db i later sst).flusher = Option.none := sound.idle free
  have absent : w.disk flushingWalName = Option.none := by
    rw [journaled.flushing, free]
    rfl
  rw [flush_ops_work] at phased ⊢
  refine committed_weathers cfg db _ i j log grown split w p .flushed db.hasFlushing _ rest.logs tidy firm keeps held
    heldNext sound soundNext
    old phased rfl ?_ idle same (by simp [Kind.shift]) bound (by rwa [← same])
    (fun u tidyThere logs settled flushing => ?_)
  · exact List.forall_mem_cons.mpr ⟨firmTable, fun table inside => firm _ List.prefix_rfl _
      (List.mem_cons_of_mem _ (List.mem_cons_of_mem _ (List.mem_map_of_mem inside)))⟩
  · rw [absent] at flushing
    have firmFlushing := absent_firm u flushingWalName (settled _) flushing
    rw [free] at logs
    rw [show (flushedDb db i later sst).hasFlushing = false from free]
    exact logs_flushed u split tidyThere logs filled none
      (fun d shown => (firm_shows u _ firmFlushing d shown).trans flushing) p bound

include tidy rest sound held bound journaled in
theorem published_weathers (job : FlushJob) (sst : SSTable)
    (heldNext : InvAt cfg (flusherPublish db job sst) (Kind.published.shift split))
    (fits : ∀ write ∈ (Kind.published.shift split).all, Logged (writeRecord write))
    (soundNext : Sound True (flusherPublish db job sst) j later) (committed : CommittedDb True db log w.disk)
    (phased : Phased True db log (flusherPublish db job sst) later Kind.published.walOps w.disk
      (writeManifestLocked (flusherPublish db job sst) ++ [.unlink flushingWalName]))
    (running : db.flusher = some job) (complete : job.built = some ([], sst)) :
    Weathered w (flusherPublish db job sst) (Kind.published.shift split) p
      (writeManifestLocked (flusherPublish db job sst) ++ [.unlink flushingWalName]) := by
  have busy : db.hasFlushing = true := by
    by_contra slot
    rw [sound.idle (Bool.eq_false_iff.mpr slot)] at running
    cases running
  have same : (Kind.published.shift split).all = split.all := by simp [Kind.shift, Split.all]
  have present : w.disk flushingWalName = some (durable (writesBytes split.sealed)) := by
    rw [journaled.flushing, if_pos busy]
  have firmTable := (rest.table job [] sst running complete).2
  refine committed_weathers cfg db _ i j log later split w p .published db.hasFlushing [] rest.logs tidy
    (always_nil _ _ rest.firm)
    (List.forall_mem_nil _) held heldNext sound soundNext (throughout_nil _ _ committed) phased rfl ?_ rfl same
    (by simp [Kind.shift]) bound (by rwa [← same]) (fun u tidyThere logs settled flushing => ?_)
  · exact List.forall_mem_cons.mpr ⟨firmTable, fun table inside => rest.firm _
      (List.mem_cons_of_mem _ (List.mem_cons_of_mem _ (List.mem_map_of_mem inside)))⟩
  · rw [busy] at logs
    exact logs_published u split tidyThere logs (settled _) (flushing.trans present) p bound

include tidy rest sound backed held heldNext bound journaled fits in
-- Every move leaves a directory that can be recovered, at each of its steps,
-- if the log that it writes to has its entry.
theorem move_weathers (basic : kind.Basic) (merges : inFlight db = []) (move : Move cfg found db kind next ops garbage)
    (moved : Moved True db log next j later kind w.disk ops garbage) (valid : w.disk.Valid)
    (small : next.nextSeq < 2 ^ 64) (entered : ∀ write sync, kind = .wrote write sync → w.Settled walName) :
    Weathered w next (kind.shift split) p ops := by
  obtain ⟨_, _, _, _, hist⟩ := held.refined
  have active : db.memtable.isEmpty = false → split.active ≠ [] := by
    intro filled none
    rw [hist.memtable, (mem_of_is_empty _).mpr none] at filled
    cases filled
  have still : ops = [] → kind.walOps = [] → CommittedDb True next later w.disk := by
    intro noOps noWal
    have phased := moved.phased
    rw [noOps, noWal] at phased
    exact (phased_commits db next log later w.disk [] [] phased).2
  cases move with
  | rest =>
      exact still_weathers cfg db db j later split w p rest moved.sound bound heldNext
        (still rfl rfl) rfl rfl rfl rest.table fits
  | wrote write bytes sync encoded =>
      cases basic
      have same : [.append walName bytes] ++ (if true = true then [.fsync walName] else []) =
        (Kind.wrote write true).walOps := by
        rw [Kind.walOps, wal_append_bytes (writeRecord write) bytes encoded]
      have soundNext : Sound True { db with memtable := db.memtable.apply write } i log := { sound with }
      have committed : CommittedDb True { db with memtable := db.memtable.apply write } log w.disk :=
        same_tables_committed db _ log log w.disk rfl rfl (Nat.le_refl _) List.prefix_rfl backed.committed
      rw [same]
      exact wrote_weathers cfg db _ i log log split w p tidy rest backed soundNext bound write heldNext
        committed rfl rfl rfl rfl (entered write true rfl) fits
  | waits waiters =>
      exact still_weathers cfg db _ j later split w p rest moved.sound bound heldNext
        (still rfl rfl) rfl rfl rfl rest.table fits
  | bloom on =>
      exact still_weathers cfg db _ j later split w p rest moved.sound bound heldNext
        (still rfl rfl) rfl rfl rfl rest.table fits
  | snapshot k has noJob index =>
      refine still_weathers cfg db _ j later split w p rest moved.sound bound heldNext (still rfl rfl) rfl rfl rfl
        (fun job io sst running built => ?_)
        fits
      cases running
      cases built
  | sealed filled free =>
      have phased := moved.phased
      obtain ⟨_, committed⟩ := phased_commits db _ log later w.disk [] Kind.sealed.walOps phased
      exact sealed_weathers cfg db _ j later split w p tidy rest moved.sound bound heldNext committed rfl rfl free
        rfl (sound.idle free) (active filled) (hist.free free) fits
  | flushed k current grown recs vlogOps bytes sst filled free index object separated built =>
      obtain ⟨rfl, rfl⟩ := sound_current db i log sound k current index object
      exact flushed_weathers cfg db i j _ grown split w p vlogOps tidy rest sound backed held bound journaled later
        recs bytes sst valid
        (Nat.lt_of_succ_lt small) heldNext fits moved.sound moved.phased (active filled) (hist.free free) free separated
  | published job sst running complete =>
      exact published_weathers cfg db i j log later split w p tidy rest sound held bound journaled job sst
        heldNext fits moved.sound
        backed.committed moved.phased running complete
  | reserved job next groups running grouped unbuilt builds =>
      exact absurd running (no_merge_running db merges .compactor job)
  | installed worker job outputs running complete => exact absurd running (no_merge_running db merges worker job)
  | _ => exact basic.elim

end Basic

-- What a step of the flusher does under a loss of power.
structure Worked (w : Volume Bytes) (db next : DB) (split : Split) (ops : List DiskOp) : Prop where
  rest : Rest (runAll w ops) next split
  keeps : ∀ op ∈ ops, op.Keeps Target
  apart : Apart walFiles ops
  quiet : ∀ op ∈ ops, op.Writes ∨ ∀ name ∈ op.touches, name ∉ liveFiles db
  live : liveFiles next = liveFiles db

theorem worked_rests (cfg : Config) (db next : DB) (i : Nat) (log : ValueLog) (split : Split) (w : Volume Bytes)
    (ops : List DiskOp) (garbage : List Bytes) (tidy : w.Tidy Target) (rest : Rest w db split)
    (sound : Sound True db i log) (backed : Backed True db log w.disk) (numbered : Numbered db)
    (small : db.nextSeq < 2 ^ 64) (merges : inFlight db = []) (move : Move cfg found db .worked next ops garbage) :
    Worked w db next split ops ∧ db.flusher ≠ none := by
  have apart : Apart walFiles ops := fun op member name touched wal =>
    work_file_kinds db name
      (worked_touches cfg db next i log w.disk ops garbage sound backed move op member name touched)
      (List.mem_append_left _ wal)
  obtain ⟨frames, _⟩ := worked_frames cfg db next ops garbage move
  have live : liveFiles next = liveFiles db := by rw [liveFiles, liveFiles, frames.tables, frames.gen]
  have close : (∀ op ∈ ops, op.Keeps Target) → (∀ op ∈ ops, op.Writes ∨ ∀ name ∈ op.touches, name ∉ liveFiles db) →
      next.hasFlushing = db.hasFlushing → TableRest (runAll w ops) next → Worked w db next split ops := by
    intro keeps quiet slot table
    refine ⟨⟨?_, ?_, table⟩, keeps, apart, quiet, live⟩
    · rw [FirmFiles, live]
      exact firm_files_run w tidy.proper db ops rest.firm quiet ops List.prefix_rfl
    · rw [slot]
      exact rest_logs_apart w _ split tidy rest.logs ops keeps apart
  cases move with
  | separated job rec stored others current later io running unbuilt pending object separates =>
      obtain ⟨rfl, _, appended, _, _⟩ :=
        sound_separated cfg db i log job rec stored others current later ops sound running unbuilt
        pending object separates
      have writes := separate_record_writes cfg current later rec stored ops separates
      refine ⟨close (fun op member => vlog_write_keeps db.currentGen op (writes op member) ?_)
        (fun op member => .inl (writes op member)) rfl (fun later io sst there built => ?_), by simp [running]⟩
      · rw [appended.touches op member, sound.name]
      · cases there
        cases unbuilt.symm.trans built
  | flushBuilt job current bytes sst running unbuilt finished object built =>
      have target := (sound.flusher job running).target
      rw [target, sound.object] at object
      cases object
      refine ⟨close (List.forall_mem_nil _) (List.forall_mem_nil _) rfl (fun later io table there steps => ?_),
        by simp [running]⟩
      cases there
      cases steps
      rw [List.append_assoc, run_all_append, table_replaces]
      refine ⟨fun op member => ?_, (replace_firm _ _ _ bytes (ne_of_kind _ _ (by simp))).1⟩
      rcases List.mem_append.mp member with sync | write
      · split at sync
        · rw [List.mem_singleton.mp sync, sound.name]
          exact vlog_write_keeps db.currentGen _ trivial rfl
        · cases sync
      · exact replace_keeps _ _ _ (table_tmp_plain _) (.inr (.inr ⟨_, rfl⟩)) op write
  | flushIo job op others sst running building =>
      obtain ⟨keeps, firm⟩ := rest.table job (op :: others) sst running building
      obtain ⟨heldSeq, seqFits⟩ := flusher_seq db i log job sound numbered small running
      refine ⟨close (fun other member => ?_) (fun other member => ?_) rfl (fun later io table there steps => ?_),
        by simp [running]⟩
      · rw [List.mem_singleton.mp member]
        exact keeps op (by simp)
      · rw [List.mem_singleton.mp member]
        rcases (backed.flush job running).touches _ sst building op (by simp) with rfl | files
        · exact .inl trivial
        · exact .inr (fun name touched => unused_files_live db numbered small job.seq seqFits
            ((reserved_apart db numbered).1 job.seq heldSeq).1 name (files name touched))
      · cases there
        cases steps
        exact ⟨fun other member => keeps other (by simp [member]), firm⟩
  | merged worker job later running unmerged merged => exact absurd running (no_merge_running db merges worker job)
  | mergeIo worker job op others outputs running building =>
      exact absurd running (no_merge_running db merges worker job)

section Calm

variable (w : Volume Bytes) (db next : DB) (split : Split) (todo ops : List DiskOp) (tidy : w.Tidy Target)
variable (onLog : ∀ op ∈ todo, op.Writes ∧ op.touches = [walName]) (worked : Worked (runAll w todo) db next split ops)

include tidy onLog worked in
theorem worked_swap (steps : List DiskOp) (part : steps <+: todo) :
    runAll (runAll w ops) steps = runAll (runAll w steps) ops := by
  refine writes_swap w tidy.proper ops steps (fun op member => (onLog op (part.subset member)).1) ?_
  intro op member other inside name touched both
  rw [(onLog op (part.subset member)).2, List.mem_singleton] at touched
  exact worked.apart other inside name both (by rw [touched]; decide)

include tidy onLog worked in
theorem worked_calm (keeps : ∀ op ∈ todo, op.Keeps Target) (history : List Write) (p base : Nat)
    (calm : Always (fun u => FirmFiles db u ∧ Holding history p base u) w todo) :
    Always (fun u => FirmFiles db u ∧ Holding history p base u) (runAll w ops) todo := by
  intro steps part
  obtain ⟨firm, holding⟩ := calm steps part
  have tidyThere := tidy_run_all w steps tidy (fun op member => keeps op (part.subset member))
  rw [worked_swap w db next split todo ops tidy onLog worked steps part]
  refine ⟨firm_files_run _ tidyThere.proper db ops firm worked.quiet ops List.prefix_rfl, fun d shown => ?_⟩
  obtain ⟨earlier, before, same⟩ := shows_frame_all _ ops tidyThere worked.keeps d shown
  rw [same walName (fun op member touched => worked.apart op member _ touched (by decide)),
    same flushingWalName (fun op member touched => worked.apart op member _ touched (by decide))]
  exact holding earlier before

end Calm

theorem idle_rests (cfg : Config) (db next : DB) (split : Split) (w : Volume Bytes) (ops : List DiskOp)
    (garbage : List Bytes) (move : Move cfg found db .idle next ops garbage) (rest : Rest w db split) :
    Rest w next split := by
  cases move <;> exact ⟨rest.firm, rest.logs, rest.table⟩

theorem idle_live (cfg : Config) (db next : DB) (ops : List DiskOp) (garbage : List Bytes)
    (move : Move cfg found db .idle next ops garbage) : liveFiles next = liveFiles db := by
  cases move <;> rfl

theorem idle_weathers (cfg : Config) (db next : DB) (split : Split) (w : Volume Bytes) (p : Nat)
    (ops none : List DiskOp) (garbage : List Bytes) (move : Move cfg found db .idle next none garbage)
    (weathered : Weathered w db split p ops) :
    Weathered w next split p ops := by
  have rest := idle_rests cfg db next split _ none garbage move weathered.rest
  cases move <;> exact ⟨weathered.safe, rest, weathered.keeps, weathered.calm⟩

theorem basic_merges (cfg : Config) (db next : DB) (kind : Kind) (ops : List DiskOp) (garbage : List Bytes)
    (basic : kind.Basic ∨ kind = .worked) (merges : inFlight db = []) (move : Move cfg found db kind next ops garbage) :
    inFlight next = [] := by
  have none := no_merge_running db merges
  cases move with
  | reserved job next groups running grouped unbuilt builds => exact absurd running (none .compactor job)
  | installed worker job outputs running complete => exact absurd running (none worker job)
  | merged worker job later running unmerged merged => exact absurd running (none worker job)
  | mergeIo worker job op others outputs running building => exact absurd running (none worker job)
  | picked picked job noJob picks => rcases basic with basic | worked <;> first | exact basic.elim | cases worked
  | pickedAll many => rcases basic with basic | worked <;> first | exact basic.elim | cases worked
  | _ => exact merges

end Tombstash
