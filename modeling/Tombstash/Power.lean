import Tombstash.Base.PowerLoss
import Tombstash.Ledger

set_option autoImplicit false

namespace Tombstash

-- The names that files are moved to. Under every other name files are written.
def Target (name : Bytes) : Prop := name = manifestName ∨ name = flushingWalName ∨ ∃ seq, name = sstName seq

theorem plain_of_kind (name : Bytes)
    (different : nameKind name ≠ nameKind manifestName ∧ nameKind name ≠ nameKind flushingWalName ∧
      ∀ seq, nameKind name ≠ nameKind (sstName seq)) : ¬ Target name := by
  rintro (same | same | ⟨seq, same⟩)
  · exact ne_of_kind _ _ different.1 same
  · exact ne_of_kind _ _ different.2.1 same
  · exact ne_of_kind _ _ (different.2.2 seq) same

theorem wal_plain : ¬ Target walName := plain_of_kind _ (by simp)

theorem manifest_tmp_plain : ¬ Target manifestTmpName := plain_of_kind _ (by simp)

theorem vlog_plain (gen : UInt32) : ¬ Target (vlogName gen) := plain_of_kind _ (by simp)

theorem table_tmp_plain (seq : Nat) : ¬ Target (tmpName (sstName seq)) := plain_of_kind _ (by simp)

theorem writes_keep (op : DiskOp) (writes : op.Writes) (plain : ∀ name ∈ op.touches, ¬ Target name) :
    op.Keeps Target := by
  refine ⟨fun name edited => plain name (edits_touched op name edited), fun name moved => ?_⟩
  cases op <;> first | exact writes.elim | cases moved

theorem vlog_write_keeps (gen : UInt32) (op : DiskOp) (writes : op.Writes) (inLog : op.touches = [vlogName gen]) :
    op.Keeps Target := by
  refine writes_keep op writes (fun name touched => ?_)
  rw [inLog, List.mem_singleton] at touched
  rw [touched]
  exact vlog_plain gen

theorem replace_keeps (temporary name bytes : Bytes) (plain : ¬ Target temporary) (moved : Target name) :
    ∀ op ∈ replaceOps temporary name bytes, op.Keeps Target := by
  intro op member
  simp only [replaceOps, List.mem_cons, List.not_mem_nil, or_false] at member
  rcases member with rfl | rfl | rfl | rfl | rfl <;> refine ⟨fun other edited => ?_, fun other there => ?_⟩ <;>
    simp only [FsOp.edits, FsOp.moves, List.mem_singleton, List.not_mem_nil] at * <;> simp_all

theorem manifest_replaces (m : ManifestData) :
    manifestOps m = replaceOps manifestTmpName manifestName (manifestBytes m) := rfl

theorem table_replaces (seq : Nat) (bytes : Bytes) :
    writeTable (sstName seq) bytes ++ [.fsyncDir] = replaceOps (tmpName (sstName seq)) (sstName seq) bytes := rfl

theorem wal_ops_keep (kind : Kind) : ∀ op ∈ kind.walOps, op.Keeps Target := by
  have log : ∀ op : DiskOp, op.edits ⊆ [walName] → op.moves ⊆ [flushingWalName] → op.Keeps Target := by
    intro op edits moves
    refine ⟨fun name edited => ?_, fun name moved => ?_⟩
    · rw [List.mem_singleton.mp (edits edited)]
      exact wal_plain
    · rw [List.mem_singleton.mp (moves moved)]
      exact .inr (.inl rfl)
  intro op member
  refine log op ?_ ?_ <;> cases kind with
  | wrote write sync => cases sync <;> simp [Kind.walOps] at member <;> grind [FsOp.edits, FsOp.moves]
  | _ => simp [Kind.walOps] at member <;> grind [FsOp.edits, FsOp.moves]

-- The sealed log that a loss of power may leave: it ends where the active one
-- begins, or it is gone with its writes in the tables.
def SealedShows (split : Split) (flushing : Option File) : Prop :=
  ∃ front sealed, split.done ++ split.sealed = front ++ sealed ∧ front.length ≤ split.done.length ∧
    (flushing = none ∧ sealed = [] ∨ flushing = some (durable (writesBytes sealed)))

-- The logs that it may leave: together they replay every write that is not in
-- the tables.
def LogsShow (split : Split) (wal flushing : Option File) : Prop :=
  ∃ front sealed active, split.all = front ++ sealed ++ active ∧ front.length ≤ split.done.length ∧
    (flushing = none ∧ sealed = [] ∨ flushing = some (durable (writesBytes sealed))) ∧
    (wal = none ∧ active = [] ∨ wal = some (durable (writesBytes active)))

theorem sealed_logs_show (split : Split) (flushing : Option File) (sealed : SealedShows split flushing) :
    LogsShow split (some (durable (writesBytes split.active))) flushing := by
  obtain ⟨front, writes, shape, early, log⟩ := sealed
  exact ⟨front, writes, split.active, by rw [Split.all, shape], early, log, .inr rfl⟩

theorem logs_replay (split : Split) (wal flushing : Option File) (shows : LogsShow split wal flushing)
    (more : List Write) (p base : Nat) (low : split.done.length ≤ base) (high : base ≤ split.all.length)
    (bound : p ≤ split.all.length) :
    Replays (split.all ++ more) p base wal flushing := by
  obtain ⟨front, sealed, active, shape, early, sealedLog, activeLog⟩ := shows
  have total : split.all.length = front.length + sealed.length + active.length := by
    rw [shape, List.length_append, List.length_append]
  refine ⟨front, sealed, active, more, active.length, by rw [shape], by omega, by omega, by omega,
    Nat.le_refl _, sealedLog, activeLog.imp id (fun present => ⟨_, present, ?_⟩)⟩
  rw [List.take_length]

theorem logs_replay_all (split : Split) (wal flushing : Option File) (shows : LogsShow split wal flushing)
    (p base : Nat) (low : split.done.length ≤ base) (high : base ≤ split.all.length) (bound : p ≤ split.all.length) :
    Replays split.all p base wal flushing := by
  have whole := logs_replay split wal flushing shows [] p base low high bound
  rwa [List.append_nil] at whole

theorem done_le_all (split : Split) : split.done.length ≤ split.all.length := by
  rw [length_all]
  omega

-- The logs of a store between two sections. A truncation of the active log may
-- be lost until something is written to it again.
structure LogsRest (w : Volume Bytes) (busy : Bool) (split : Split) : Prop where
  wal : w.disk walName = some (durable (writesBytes split.active))
  entered : busy = false → w.Settled walName
  whole : busy = true ∨ split.active ≠ [] → w.Clean walName
  sealed : busy = true → w.Firm flushingWalName
  shown : w.Leaves (fun d => LogsShow split (d walName) (d flushingWalName) ∧ SealedShows split (d flushingWalName))

-- What a loss of power leaves of the logs at any moment of a move.
def Holding (history : List Write) (p base : Nat) (w : Volume Bytes) : Prop :=
  w.Leaves (fun d => Replays history p base (d walName) (d flushingWalName))

section Logs

variable (w : Volume Bytes) (busy : Bool) (split : Split) (tidy : w.Tidy Target) (logs : LogsRest w busy split)

include logs in
theorem rest_holding (p base : Nat) (low : split.done.length ≤ base) (high : base ≤ split.all.length)
    (bound : p ≤ split.all.length) :
    Holding split.all p base w := fun d shown =>
  logs_replay_all split _ _ (logs.shown d shown).1 p base low high bound

include tidy logs in
theorem rest_logs_apart (ops : List DiskOp) (keeps : ∀ op ∈ ops, op.Keeps Target) (apart : Apart walFiles ops) :
    LogsRest (runAll w ops) busy split := by
  have untouched : ∀ name ∈ walFiles, ∀ op ∈ ops, name ∉ op.touches := fun name inside op member touched =>
    apart op member name touched inside
  have wal := untouched walName (by decide)
  have flushing := untouched flushingWalName (by decide)
  refine ⟨?_, fun idle => ?_, fun whole => ?_, fun sealed => ?_, fun d shown => ?_⟩
  · rw [run_all_disk w tidy.proper, apply_all_frame _ ops _ wal]
    exact logs.wal
  · exact settled_run_all w ops tidy.proper _ (logs.entered idle) wal
  · exact clean_run_all w ops tidy.proper _ (logs.whole whole) wal
  · exact firm_run_all w ops tidy.proper _ (logs.sealed sealed) flushing
  · obtain ⟨earlier, before, same⟩ := shows_frame_all w ops tidy keeps d shown
    rw [same _ wal, same _ flushing]
    exact logs.shown earlier before

include tidy logs in
theorem append_shows (settled : w.Settled walName) (write : Write) (d : Disk Bytes)
    (shown : ((FsOp.append walName (walRecord (writeRecord write))).run w).Shows d) :
    ∃ earlier, w.Shows earlier ∧ d flushingWalName = earlier flushingWalName ∧
      (d walName = earlier walName ∨
        d walName = some ⟨writesBytes (split.active ++ [write]), (writesBytes split.active).length⟩) := by
  obtain ⟨earlier, before, same, atLog⟩ := write_shows w tidy walName wal_plain settled _ d shown
  refine ⟨earlier, before, same _ (by decide), atLog.imp id (fun written => ?_)⟩
  rw [written, logs.wal, writes_bytes_append]
  rfl

include tidy logs in
theorem wrote_rest (settled : w.Settled walName) (write : Write) :
    LogsRest (runAll w (Kind.wrote write true).walOps) busy ((Kind.wrote write true).shift split) := by
  let appends : DiskOp := .append walName (walRecord (writeRecord write))
  have tidyMiddle : (appends.run w).Tidy Target :=
    tidy_run w appends tidy (wal_ops_keep (.wrote write true) appends (by simp [appends, Kind.walOps]))
  have settledMiddle := writes_settled w appends trivial walName settled
  have middleDisk :
    (appends.run w).disk walName = some ⟨writesBytes (split.active ++ [write]), (writesBytes split.active).length⟩ := by
    rw [run_disk w tidy.proper, FsOp.apply, set_same, logs.wal, writes_bytes_append]
    rfl
  refine ⟨?_, fun _ => ?_, fun _ => ?_, fun sealed => ?_, fun d shown => ?_⟩
  · change ((FsOp.fsync walName).run (appends.run w)).disk walName = _
    rw [run_disk _ tidyMiddle.proper]
    exact fsync_file _ walName _ _ middleDisk
  · exact writes_settled _ (.fsync walName) trivial walName settledMiddle
  · exact fun i there => congrArg Node.before (if_pos there)
  · exact writes_firm _ (.fsync walName) trivial _ (writes_firm w appends trivial _ (logs.sealed sealed))
  · obtain ⟨between, shownBetween, same, atLog⟩ := sync_shows _ tidyMiddle walName wal_plain settledMiddle d shown
    obtain ⟨earlier, before, sealedLog, _⟩ := append_shows w busy split tidy logs settled write between shownBetween
    have sealedShows := (logs.shown earlier before).2
    rw [same flushingWalName (by decide), sealedLog, atLog, middleDisk]
    exact ⟨sealed_logs_show ((Kind.wrote write true).shift split) _ sealedShows, sealedShows⟩

include tidy logs in
theorem logs_wrote (settled : w.Settled walName) (write : Write) (p : Nat) (bound : p ≤ split.all.length) :
    LogsRest (runAll w (Kind.wrote write true).walOps) busy ((Kind.wrote write true).shift split) ∧
      Always (Holding ((Kind.wrote write true).shift split).all p split.done.length) w
      (Kind.wrote write true).walOps := by
  have longer : ((Kind.wrote write true).shift split).all = split.all ++ [write] := by simp [Kind.shift, Split.all]
  have rest := wrote_rest w busy split tidy logs settled write
  have old : ∀ earlier, w.Shows earlier →
      Replays (split.all ++ [write]) p split.done.length (earlier walName) (earlier flushingWalName) :=
      fun earlier before =>
    logs_replay split _ _ (logs.shown earlier before).1 [write] p _ (Nat.le_refl _) (done_le_all split) bound
  refine ⟨rest, (always_cons _ _ _ _).mpr ⟨?_, (always_cons _ _ _ _).mpr ⟨fun d shown => ?_, always_nil _ _ ?_⟩⟩⟩
  · rw [longer]
    exact old
  · obtain ⟨earlier, before, sealedLog, atLog | atLog⟩ := append_shows w busy split tidy logs settled write d shown
    · rw [longer, sealedLog, atLog]
      exact old earlier before
    · -- The log has the write, which may not be durable yet.
      obtain ⟨front, sealed, shape, early, log⟩ := (logs.shown earlier before).2
      have total := congrArg List.length shape
      rw [List.length_append, List.length_append] at total
      rw [length_all] at bound
      rw [sealedLog, atLog]
      refine ⟨front, sealed, split.active ++ [write], [], split.active.length, ?_, early, by omega,
        by omega, by simp, log, .inr ⟨_, rfl, ?_⟩⟩
      · rw [← shape, List.append_nil]
        rfl
      · rw [List.take_left]
  · exact rest_holding _ busy _ rest p _ (Nat.le_refl _) (done_le_all ((Kind.wrote write true).shift split))
      (by rw [longer, List.length_append]; omega)

end Logs

section Slot

variable (w : Volume Bytes) (split : Split) (tidy : w.Tidy Target)

theorem fresh_logs_show (wal : Option File) (fresh : wal = none ∨ wal = some (durable (writesBytes []))) :
    LogsShow (Kind.sealed.shift split) wal (some (durable (writesBytes split.active))) :=
  ⟨split.done, split.active, [], rfl, Nat.le_refl _, .inr rfl, fresh.imp (fun gone => ⟨gone, rfl⟩) id⟩

include tidy in
theorem sealed_rest (clean : w.Clean walName) (present : w.disk walName = some (durable (writesBytes split.active))) :
    LogsRest (runAll w [.rename walName flushingWalName, .fsyncDir, .truncate walName]) true
    (Kind.sealed.shift split) := by
  obtain ⟨gone, moved, firmWal, firmFlushing⟩ := rename_firm w tidy.proper walName flushingWalName (by decide) clean
  rw [present] at moved
  have proper := run_all_proper w tidy.proper [.rename walName flushingWalName, .fsyncDir]
  change LogsRest ((FsOp.truncate walName).run (runAll w [.rename walName flushingWalName, .fsyncDir])) true
    (Kind.sealed.shift split)
  generalize runAll w [.rename walName flushingWalName, .fsyncDir] = entered at gone moved firmWal firmFlushing proper
  have made : (FsOp.truncate walName).run entered = entered.make walName := by
    rw [disk_at, Option.map_eq_none_iff] at gone
    rw [FsOp.run, gone]
    rfl
  refine ⟨?_, fun idle => (by cases idle), fun _ => ?_, fun _ => ?_, fun d shown => ?_⟩
  · rw [run_disk entered proper, FsOp.apply, set_same]
    rfl
  · rw [made]
    exact make_clean entered walName
  · exact firm_run entered _ _ proper firmFlushing (by decide)
  · rw [made] at shown
    obtain ⟨earlier, before, atLog, others⟩ := make_shows entered proper walName d shown
    rw [firm_shows entered _ firmWal earlier before, gone] at atLog
    rw [others flushingWalName (by decide), firm_shows entered _ firmFlushing earlier before, moved]
    exact ⟨fresh_logs_show split _ atLog, split.done, split.active, rfl, Nat.le_refl _, .inr rfl⟩

include tidy in
-- The log is durable before it gets its new name, and the name is before there
-- is a new log.
theorem logs_sealed (logs : LogsRest w false split) (filled : split.active ≠ []) (none : split.sealed = []) (p : Nat)
    (bound : p ≤ split.all.length) :
    LogsRest (runAll w Kind.sealed.walOps) true (Kind.sealed.shift split) ∧
      Always (Holding (Kind.sealed.shift split).all p split.done.length) w Kind.sealed.walOps := by
  have clean := logs.whole (.inr filled)
  have same : (Kind.sealed.shift split).all = split.all := by simp [Kind.shift, Split.all, none]
  have synced : (FsOp.fsync walName).run w = w := sync_same w walName _ clean logs.wal
  have rest := sealed_rest w split tidy clean logs.wal
  have before : Holding (Kind.sealed.shift split).all p split.done.length w := by
    rw [same]
    exact rest_holding w false split logs p _ (Nat.le_refl _) (done_le_all split) bound
  rw [← same] at bound
  have during : Holding (Kind.sealed.shift split).all p split.done.length
    ((FsOp.rename walName flushingWalName).run w) := by
    intro d shown
    rcases rename_shows w walName flushingWalName (by decide) clean d shown with old | ⟨_, _, noLog, sealedLog, _⟩
    · exact before d old
    · rw [noLog, sealedLog, logs.wal]
      exact logs_replay_all _ _ _ (fresh_logs_show split _ (.inl rfl)) p _ (Nat.le_refl _)
        (done_le_all (Kind.sealed.shift split)) bound
  refine ⟨?_, (always_cons _ _ _ _).mpr ⟨before, ?_⟩⟩
  · change LogsRest
      (runAll ((FsOp.fsync walName).run w) [.rename walName flushingWalName, .fsyncDir, .truncate walName]) true _
    rw [synced]
    exact rest
  · rw [synced]
    refine (always_cons _ _ _ _).mpr
      ⟨before, (always_cons _ _ _ _).mpr ⟨during, (always_cons _ _ _ _).mpr ⟨?_, always_nil _ _ ?_⟩⟩⟩
    · exact fun d shown => during d (fsync_dir_shows _ (run_proper w tidy.proper _) d shown)
    · exact rest_holding _ true _ rest p _ (Nat.le_refl _) (done_le_all (Kind.sealed.shift split)) bound

include tidy in
theorem logs_flushed (logs : LogsRest w false split) (filled : split.active ≠ []) (none : split.sealed = [])
    (gone : w.Leaves (fun d => d flushingWalName = Option.none)) (p : Nat) (bound : p ≤ split.all.length) :
    LogsRest (runAll w Kind.flushed.walOps) false (Kind.flushed.shift split) ∧
      Always (Holding (Kind.flushed.shift split).all p (Kind.flushed.shift split).done.length) w
      Kind.flushed.walOps := by
  have same : (Kind.flushed.shift split).all = split.all := by simp [Kind.shift, Split.all, none]
  have settled := logs.entered rfl
  have cuts : (FsOp.truncate walName).run w = w.edit walName Node.cut := by
    have present := logs.wal
    rw [disk_at] at present
    obtain ⟨i, there, _⟩ := Option.map_eq_some_iff.mp present
    rw [FsOp.run, there]
    rfl
  have rest : LogsRest ((FsOp.truncate walName).run w) false (Kind.flushed.shift split) := by
    refine ⟨?_, fun _ => ?_, fun whole => ?_, fun sealed => (by cases sealed), fun d shown => ?_⟩
    · rw [run_disk w tidy.proper, FsOp.apply, set_same]
      rfl
    · rw [cuts]
      exact settled
    · rcases whole with busy | active
      · cases busy
      · exact absurd rfl active
    · rw [cuts] at shown
      obtain ⟨earlier, before, others, atLog⟩ :=
        cut_shows w tidy walName wal_plain settled (logs.whole (.inr filled)) _ logs.wal d shown
      have sealedLog : d flushingWalName = Option.none := (others _ (by decide)).trans (gone earlier before)
      rw [sealedLog]
      refine ⟨?_, split.done ++ split.active, [], rfl, Nat.le_refl _, .inl ⟨rfl, rfl⟩⟩
      rcases atLog with empty | old
      · exact ⟨split.done ++ split.active, [], [], rfl, Nat.le_refl _, .inl ⟨rfl, rfl⟩, .inr empty⟩
      · rw [durable, List.take_length] at old
        refine ⟨split.done, [], split.active, ?_, ?_, .inl ⟨rfl, rfl⟩, .inr old⟩
        · simp [Kind.shift, Split.all]
        · simp [Kind.shift]
  have reaches : (Kind.flushed.shift split).done.length ≤ split.all.length := by
    rw [length_all, Kind.shift, List.length_append, none]
    exact Nat.le_refl _
  refine ⟨rest, (always_cons _ _ _ _).mpr ⟨?_, always_nil _ _ ?_⟩⟩
  · rw [same]
    exact rest_holding w false split logs p _ (by simp [Kind.shift]) reaches bound
  · rw [← same] at bound reaches
    exact rest_holding _ false _ rest p _ (Nat.le_refl _) reaches bound

include tidy in
theorem logs_published (logs : LogsRest w true split) (settled : w.Settled walName)
    (present : w.disk flushingWalName = some (durable (writesBytes split.sealed))) (p : Nat)
    (bound : p ≤ split.all.length) :
    LogsRest (runAll w Kind.published.walOps) false (Kind.published.shift split) ∧
      Always (Holding (Kind.published.shift split).all p (Kind.published.shift split).done.length) w
      Kind.published.walOps := by
  have same : (Kind.published.shift split).all = split.all := by simp [Kind.shift, Split.all]
  have firm : w.Firm walName := ⟨settled, logs.whole (.inl rfl)⟩
  have untouched : walName ∉ (FsOp.unlink flushingWalName).touches := by decide
  have rest : LogsRest ((FsOp.unlink flushingWalName).run w) false (Kind.published.shift split) := by
    refine ⟨?_, fun _ => settled_run w _ _ tidy.proper settled untouched,
      fun _ => clean_run w _ _ tidy.proper firm.clean untouched, fun sealed => (by cases sealed), fun d shown => ?_⟩
    · rw [run_disk w tidy.proper, apply_frame _ _ _ untouched]
      exact logs.wal
    · obtain ⟨earlier, before, atSealed, others⟩ := unlink_shows w flushingWalName d shown
      have sealedLog : SealedShows (Kind.published.shift split) (d flushingWalName) := by
        rcases atSealed with stays | removed
        · rw [stays, firm_shows w _ (logs.sealed rfl) earlier before, present]
          exact ⟨split.done, split.sealed, List.append_nil _, by simp [Kind.shift], .inr rfl⟩
        · exact ⟨split.done ++ split.sealed, [], rfl, Nat.le_refl _, .inl ⟨removed, rfl⟩⟩
      rw [others walName (by decide), firm_shows w _ firm earlier before, logs.wal]
      exact ⟨sealed_logs_show (Kind.published.shift split) _ sealedLog, sealedLog⟩
  have reaches : (Kind.published.shift split).done.length ≤ split.all.length := by
    rw [length_all, Kind.shift, List.length_append]
    omega
  refine ⟨rest, (always_cons _ _ _ _).mpr ⟨?_, always_nil _ _ ?_⟩⟩
  · rw [same]
    exact rest_holding w true split logs p _ (by simp [Kind.shift]) reaches bound
  · rw [← same] at bound reaches
    exact rest_holding _ false _ rest p _ (Nat.le_refl _) reaches bound

end Slot

-- A directory from which the constructor recovers a beginning of the history
-- that has the first p writes.
def Recovering (history : List Write) (p : Nat) (d : Disk Bytes) : Prop :=
  ∃ m text ssts, Committed True d m text ssts ∧ Recoverable history p (d walName) (d flushingWalName) m text ssts

def FirmFiles (db : DB) (w : Volume Bytes) : Prop := ∀ name ∈ liveFiles db, w.Firm name

theorem firm_files_same (db next : DB) (w : Volume Bytes) (tables : next.sstables = db.sstables)
    (gen : next.currentGen = db.currentGen) (firm : FirmFiles db w) : FirmFiles next w := by
  rw [FirmFiles, liveFiles, tables, gen]
  exact firm

theorem agree_committed {serial : Prop} (db : DB) (log : ValueLog) (d e : Disk Bytes)
    (same : ∀ name ∈ liveFiles db, d name = e name) (committed : CommittedDb serial db log e) :
    CommittedDb serial db log d := by
  obtain ⟨seq, text, le, known, holds⟩ := committed
  refine ⟨seq, text, le, known, committed_kept e d _ _ _ holds (same _ (by simp [liveFiles])) (fun entry member => ?_)
    (log_kept_same _ _ _ (same _ (by simp [liveFiles, manifestAt, manifestOf])))⟩
  obtain ⟨table, inside, rfl⟩ := List.mem_map.mp member
  exact same _ (List.mem_cons_of_mem _ (List.mem_cons_of_mem _ (List.mem_map_of_mem inside)))

theorem firm_committed {serial : Prop} (w : Volume Bytes) (db : DB) (log : ValueLog) (firm : FirmFiles db w)
    (committed : CommittedDb serial db log w.disk) : w.Leaves (CommittedDb serial db log) := fun d shown =>
  agree_committed db log d w.disk (fun name member => firm_shows w name (firm name member) d shown) committed

theorem firm_files_run (w : Volume Bytes) (proper : w.Proper) (db : DB) (ops : List DiskOp) (firm : FirmFiles db w)
    (apart : ∀ op ∈ ops, op.Writes ∨ ∀ name ∈ op.touches, name ∉ liveFiles db) : Always (FirmFiles db) w ops := by
  intro done part
  refine run_all_keeps w done (FirmFiles db) proper firm (fun op member u properNow now name live => ?_)
  rcases apart op (part.subset member) with writes | other
  · exact writes_firm u op writes name (now name live)
  · exact firm_run u op name properNow (now name live) (fun touched => other name touched live)

section Recovering

variable (cfg : Config) (db : DB) (split : Split) (i : Nat) (log : ValueLog) (held : InvAt cfg db split)
    (sound : Sound True db i log)
variable (fits : ∀ write ∈ split.all, Logged (writeRecord write)) (p : Nat)

include held sound fits in
theorem committed_recovers (d : Disk Bytes) (committed : CommittedDb True db log d)
    (replays : Replays split.all p split.done.length (d walName) (d flushingWalName)) : Recovering split.all p d := by
  obtain ⟨seq, text, _, known, holds⟩ := committed
  rw [← List.append_nil split.all] at fits replays ⊢
  exact ⟨_, text, _, holds, recoverable_at cfg db split i log held sound seq p text known _ _ [] fits replays⟩

include held sound fits in
theorem always_recovers (w : Volume Bytes) (proper : w.Proper) (ops : List DiskOp) (firm : Always (FirmFiles db) w ops)
    (committed : Throughout (CommittedDb True db log) w.disk ops)
    (holding : Always (Holding split.all p split.done.length) w ops) :
    Always (fun u => u.Leaves (Recovering split.all p)) w ops := by
  intro done part d shown
  have now := committed done part
  rw [← run_all_disk w proper] at now
  exact committed_recovers cfg db split i log held sound fits p d (firm_committed _ db log (firm done part) now d shown)
    (holding done part d shown)

include held sound fits in
theorem wal_recovers (w : Volume Bytes) (proper : w.Proper) (numbered : Numbered db) (firm : FirmFiles db w)
    (committed : CommittedDb True db log w.disk) (kind : Kind)
    (holding : Always (Holding split.all p split.done.length) w kind.walOps) :
    Always (fun u => u.Leaves (Recovering split.all p)) w kind.walOps ∧ Always (FirmFiles db) w kind.walOps := by
  have apart := wal_files_live db numbered kind.walOps (wal_ops_files kind)
  have firmAll := firm_files_run w proper db kind.walOps firm (fun op member => .inr (apart op member))
  exact ⟨always_recovers cfg db split i log held sound fits p w proper kind.walOps firmAll
    (committed_db_apart db log w.disk kind.walOps committed apart) holding, firmAll⟩

end Recovering

end Tombstash
