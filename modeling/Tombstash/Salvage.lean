import Tombstash.Ledger
import Tombstash.Restart

set_option autoImplicit false

namespace Tombstash

-- No record lands behind torn bytes: the log ends with a whole record, or the
-- constructor empties it.
def Aligned (disk : Disk Bytes) : Prop :=
  (∀ file, disk walName = some file → tornTail file.data = []) ∨ (disk flushingWalName).isSome = true ∧
    replayedWrites disk ≠ []

-- A constructor that may be interrupted: it has no sealed log to flush, or both
-- logs are durable and end alike on the keys they share.
def Restarts (disk : Disk Bytes) : Prop :=
  disk flushingWalName = none ∨ WholeLogs disk ∧ Agree (replayFile disk flushingWalName) (replayFile disk walName)

-- The records of the active log are ones that put or del has written.
def OwnRecords (disk : Disk Bytes) : Prop :=
  ∀ file, disk walName = some file → ∃ writes : List Write, replay file.data = writes.map writeRecord

-- What a crash may leave: tables that hold some history, and logs that make a
-- beginning of the ledger's of it which has its first p writes.
def Salvages (history : List Write) (p : Nat) : Good := fun wal flushing m text ssts =>
  ∃ base log, log.gen = m.currentGen ∧ text <+: log.file ∧ TablesHold log base ssts ∧
    (∀ write ∈ base, Logged (writeRecord write)) ∧
    ∀ disk image : Disk Bytes, disk walName = wal → disk flushingWalName = flushing → CrashImage disk image →
      OwnRecords image ∧
        ∃ n, p ≤ n ∧ n ≤ history.length ∧ ∀ key, valueOf (base ++ replayedWrites image) key = valueOf
        (history.take n) key

theorem cut_own_records (writes : List Write) (fits : ∀ write ∈ writes, Logged (writeRecord write)) (data : Bytes)
    (part : data <+: writesBytes writes) : ∃ n, replay data = (writes.take n).map writeRecord := by
  obtain ⟨rest, eq⟩ := part
  have logged : ∀ rec ∈ writes.map writeRecord, Logged rec := by
    intro rec member
    obtain ⟨write, inside, rfl⟩ := List.mem_map.mp member
    exact fits write inside
  obtain ⟨n, _, replayed, _⟩ := replay_prefix (writes.map writeRecord) data rest logged eq.symm
  exact ⟨n, by rw [replayed, List.map_take]⟩

theorem replays_own_records (history : List Write) (p base : Nat) (disk image : Disk Bytes)
    (cut : CrashImage disk image) (fits : ∀ write ∈ history, Logged (writeRecord write))
    (replays : Replays history p base (disk walName) (disk flushingWalName)) : OwnRecords image := by
  obtain ⟨front, sealed, active, more, sure, rfl, _, _, _, _, _, activeLog⟩ := replays
  intro file present
  rcases activeLog with ⟨gone, _⟩ | ⟨synced, there, _⟩
  · rw [crash_none disk image cut _ gone] at present
    cases present
  · obtain ⟨kept, _, _, after⟩ := crash_some disk image cut walName _ there
    rw [after] at present
    cases present
    obtain ⟨n, replayed⟩ := cut_own_records active (fun write member => fits write (by simp [member])) _
      (List.take_prefix kept (writesBytes active))
    exact ⟨_, replayed⟩

section Good

variable (inner outer : List Write) (a b p : Nat)

theorem recoverable_salvages (parallel : Parallel inner outer a b) (low : b ≤ p) (wal flushing : Option File)
    (m : ManifestData) (text : Bytes) (ssts : List SSTable)
    (recoverable : Recoverable inner (a + (p - b)) wal flushing m text ssts) :
    Salvages outer p wal flushing m text ssts := by
  obtain ⟨base, log, gen, known, holds, fits, replays⟩ := recoverable
  refine ⟨inner.take base, log, gen, known, holds, fun write member => fits write (List.mem_of_mem_take member), ?_⟩
  rintro disk image rfl rfl cut
  refine ⟨replays_own_records inner _ base disk image cut fits replays, ?_⟩
  obtain ⟨start, n, early, late, kept, bound, replayed⟩ := replays_cut inner _ base disk image cut fits replays
  have lengths := parallel_length inner outer a b parallel
  have outside := parallel.outside
  refine ⟨b + (n - a), by omega, by omega, fun key => ?_⟩
  rw [← parallel_take inner outer a b parallel (n - a) key, Nat.add_sub_cancel' (by omega), replayed,
    valueOf, latest_append, replay_overlap inner start base n key early late]
  rfl

theorem cut_salvages (base sealed active : List Write) (disk : Disk Bytes) (cut : Cut base sealed active disk)
    (agree : Agree sealed active) (fits : ∀ write ∈ base ++ (sealed ++ active), Logged (writeRecord write))
    (own : OwnRecords disk) (same : ∀ key, valueOf (base ++ (sealed ++ active)) key = valueOf outer key)
    (bound : p ≤ outer.length) :
    ∃ m text ssts, Committed True disk m text ssts ∧
    Salvages outer p (disk walName) (disk flushingWalName) m text ssts := by
  have from_base : ∀ held, Resumes held disk → (∀ write ∈ held, Logged (writeRecord write)) →
      (∀ key, valueOf (held ++ replayedWrites disk) key = valueOf outer key) →
      ∃ m text ssts, Committed True disk m text ssts ∧
      Salvages outer p (disk walName) (disk flushingWalName) m text ssts := by
    rintro held ⟨⟨m, text, ssts, log, committed, gen, known, holds⟩, logs⟩ heldFits shows
    refine ⟨m, text, ssts, committed, held, log, gen, known, holds, heldFits, ?_⟩
    intro other image wal flushing crash
    have unchanged : ∀ name ∈ walFiles, image name = disk name := by
      intro name member
      have same : other name = disk name := by
        rcases List.mem_pair.mp member with rfl | rfl
        · exact wal
        · exact flushing
      rw [crash_whole other image crash name (fun file present => logs name member file (same ▸ present)), same]
    refine ⟨fun file present => own file ((unchanged walName (by decide)) ▸ present), outer.length, bound,
      Nat.le_refl _, fun key => ?_⟩
    rw [replayed_same disk image unchanged, List.take_length]
    exact shows key
  have early : ∀ write ∈ base, Logged (writeRecord write) := fun write member =>
    fits write (List.mem_append_left _ member)
  cases cut with
  | before resumes replays => exact from_base base resumes early (fun key => by rw [replays]; exact same key)
  | committed resumes replays =>
      exact from_base _ resumes fits (fun key => by rw [replays, replay_twice]; exact same key)
  | truncated resumes replays =>
      exact from_base _ resumes fits
        (fun key => by rw [replays, replay_agreed base sealed active agree]; exact same key)
  | finished resumes replays =>
      exact from_base _ resumes fits (fun key => by rw [replays, List.append_nil]; exact same key)

end Good

theorem inv_imp (good weaker : Good) (empty none : Prop) (s : Sys) (inv : SysInv True good empty s)
    (imp : ∀ wal flushing m text ssts, good wal flushing m text ssts → weaker wal flushing m text ssts)
    (blank : empty → none) :
    SysInv True weaker none s := by
  refine { inv with guarded := throughout_imp _ _ _ _ inv.guarded (fun _ guarded => guarded.imp ?_ ?_) }
  · exact fun before => ⟨before.1, before.2.1, blank before.2.2⟩
  · exact fun ⟨m, text, ssts, committed, fence, holds⟩ => ⟨m, text, ssts, committed, fence, imp _ _ _ _ _ holds⟩

theorem blank_uncommitted (disk : Disk Bytes) (m : ManifestData) (text : Bytes) (ssts : List SSTable)
    (blank : Blank disk) (committed : Committed True disk m text ssts) : False :=
  absurd (blank.few manifestName (by rw [committed.manifest]; rfl)) (by decide)

theorem inv_known (good : Good) (empty : Prop) (s : Sys) (inv : SysInv True anyStore True s)
    (during : Throughout (fun d => ∃ m text ssts, Committed True d m text ssts ∧
      good (d walName) (d flushingWalName) m text ssts) s.disk s.todo) :
    SysInv True good empty s := by
  refine { inv with guarded := fun done part => ?_ }
  obtain ⟨m, text, ssts, committed, holds⟩ := during done part
  rcases inv.guarded done part with ⟨blank, _⟩ | ⟨other, text', ssts', there, fence, _⟩
  · exact (blank_uncommitted _ m text ssts blank committed).elim
  · cases committed_unique _ m other text text' ssts ssts' committed there
    exact .inr ⟨m, text, ssts, committed, fence, holds⟩

theorem committed_tables (disk : Disk Bytes) (entries : List ManifestEntry) (ssts others : List SSTable)
    (one : List.Forall₂ (fun entry sst => Stored disk entry.name sst) entries ssts)
    (two : List.Forall₂ (fun entry sst => Stored disk entry.name sst) entries others) : ssts = others := by
  induction one generalizing others with
  | nil =>
      cases two
      rfl
  | cons here _ ih =>
      cases two with
      | cons there rest =>
          obtain ⟨bytes, present, opened, _⟩ := here
          obtain ⟨_, again, reopened, _⟩ := there
          rw [present] at again
          cases again
          rw [opened] at reopened
          cases reopened
          rw [ih _ rest]

section Constructor

variable (cfg : Config) (disk : Disk Bytes) (next : Sys) (m : ManifestData) (text : Bytes) (ssts : List SSTable)
variable (committed : Committed True disk m text ssts) (file : File)
    (present : disk (vlogName m.currentGen) = some file)
variable (valid : disk.Valid) (opens : Opens cfg disk next)

include committed present valid opens in
theorem opened_log_steps : ∀ op ∈ next.todo, op = .create walName ∨ op = .truncate walName ∨ walName ∉ op.touches := by
  obtain ⟨listing, _, opened⟩ := opens.opened
  obtain ⟨orphans, kind, front, swept, plain, move, shape, _⟩ :=
    opened_move cfg listing disk m text ssts committed file present
    next.db next.todo opened
  obtain ⟨_, _, _, _, work, rfl, apart, _⟩ :=
    opened_advances cfg listing disk m text ssts committed file present next.db orphans
    front kind (replayedWrites disk) swept plain move valid (within_limits_listable next.db opens.limits)
  obtain ⟨_, swept⟩ := orphans_apart disk m text ssts committed.prepared listing orphans swept
  intro op member
  rw [shape, List.mem_append, List.mem_append, List.mem_append] at member
  rcases member with start | (inWork | inWal) | drop
  · rcases List.mem_cons.mp start with rfl | rest
    · exact .inl rfl
    rcases List.mem_cons.mp rest with rfl | orphan
    · refine .inr (.inr (fun touched => ?_))
      have other : walName[0]? ≠ some 0x76 := by decide
      exact other (by rw [List.mem_singleton.mp touched]; exact vlog_first _)
    · exact .inr (.inr (fun touched => swept op orphan walName touched (by decide)))
  · exact .inr (.inr (fun touched => apart op inWork walName touched (by decide)))
  · rcases plain with rfl | rfl
    · exact .inr (.inl (List.mem_singleton.mp inWal))
    · cases inWal
  · refine .inr (.inr ?_)
    rw [dropFlushing] at drop
    split at drop
    · rcases List.mem_pair.mp drop with rfl | rfl <;> decide
    · cases drop

theorem created_log (d : Disk Bytes) : (FsOp.create walName).apply d walName = d walName ∨
    d walName = none ∧ (FsOp.create walName).apply d walName = some ⟨[], 0⟩ := by
  cases there : d walName with
  | none => exact .inr ⟨rfl, by simp [FsOp.apply, set_same, there]⟩
  | some old => exact .inl (by rw [create_present d walName old there, there])

include committed present valid opens in
theorem opened_own_records (own : OwnRecords disk) : Throughout OwnRecords disk next.todo := by
  refine throughout_kept OwnRecords disk next.todo own (fun op member d before file there => ?_)
  rcases opened_log_steps cfg disk next m text ssts committed _ present valid opens op member with rfl | rfl | apart
  · rcases created_log d with same | ⟨_, fresh⟩
    · exact before file (same ▸ there)
    · cases fresh.symm.trans there
      exact ⟨[], rfl⟩
  · cases (set_same _ _ _).symm.trans there
    exact ⟨[], rfl⟩
  · exact before file (apply_frame d op walName apart ▸ there)

theorem own_log (own : OwnRecords disk) (old : File) (there : disk walName = some old)
    (whole : tornTail old.data = []) :
    old.data = writesBytes (replayFile disk walName) := by
  obtain ⟨writes, replayed⟩ := own old there
  have data := (replay_inverse old.data).1
  have same : replayFile disk walName = writes := by
    simp [replayFile, fileData, there, replayed, Function.comp_def, record_write]
  rw [whole, List.append_nil, replayed] at data
  rw [same]
  exact data

include committed present valid opens in
-- The store that is opened on such a directory holds the writes of its tables
-- and of its logs, and goes on with a log of whole records.
theorem opened_kept (good : Good) (empty : Prop) (base : List Write)
    (holds : TablesHold (ValueLog.opened (vlogName m.currentGen) m.currentGen file.data) base ssts)
    (deep : DeepStore m ssts) (own : OwnRecords disk) (aligned : Aligned disk) (inv : SysInv True good empty next) :
    ∃ split, Kept good empty next split ∧ split.all = base ++ replayedWrites disk := by
  obtain ⟨kind, orphans, work, loads⟩ := opens_loads cfg disk m text ssts file next committed present valid opens
  obtain ⟨stamp, hist⟩ :=
    loaded_hist m ssts file.data (replayedWrites disk) base committed.prepared.tables.length_eq holds
  have loaded : InvAt cfg (loadedDb m ssts file.data (replayedWrites disk)) ⟨base, [], replayedWrites disk⟩ :=
    ⟨⟨0, _, stamp, loads.sound, hist⟩, loads.numbered, loaded_arranged cfg m ssts file.data _ deep.1⟩
  have noWrites : kind.writes = [] ∧ ¬ kind.Picks ∧ kind ≠ .picked := by
    rcases loads.plain with rfl | rfl <;> exact ⟨rfl, id, nofun⟩
  obtain ⟨held, writes, _⟩ := move_inv_at cfg _ next.db _ kind _ [] loaded loads.move
    (fun pick => absurd pick noWrites.2.1) (fun pick => absurd pick noWrites.2.2) opens.limits.1
  rw [noWrites.1, List.append_nil] at writes
  refine ⟨kind.shift ⟨base, [], replayedWrites disk⟩, ⟨inv, opens.limits, by rw [opens.cfg]; exact held, ?_⟩, ?_⟩
  · rw [opens.disk]
    cases leftover : disk flushingWalName with
    | none =>
        -- The log stays as it is, or is made.
        have log : ∃ synced,
          (FsOp.create walName).apply disk walName = some ⟨writesBytes (replayedWrites disk), synced⟩ := by
          rw [replayedWrites, replay_file_none disk _ leftover, List.nil_append]
          have whole : ∀ old, disk walName = some old → tornTail old.data = [] := by
            rcases aligned with ends | ⟨sealed, _⟩
            · exact ends
            · rw [leftover] at sealed
              cases sealed
          cases there : disk walName with
          | none => exact ⟨0, by simp [FsOp.apply, set_same, there, replay_file_none, writesBytes, walBytes]⟩
          | some old =>
              rw [create_present disk walName old there, there, ← own_log disk own old there (whole old there)]
              exact ⟨old.synced, rfl⟩
        obtain ⟨rfl, same⟩ := loads.clean (by rw [leftover]; rfl)
        obtain ⟨synced, created⟩ := log
        obtain ⟨_, idle⟩ := flush_keeps_slot cfg _ next.db .idle _ [] loads.plain loads.move
        have steps : next.todo = startOps m orphans := by rw [loads.todo, (idle rfl).2, leftover]; simp [dropFlushing]
        rw [steps, same]
        refine ⟨⟨synced, (loads.start walName (by decide)).trans created⟩, ?_, replayed_logged disk⟩
        exact (loads.start flushingWalName (by decide)).trans ((apply_frame disk _ _ (by decide)).trans leftover)
    | some old =>
        refine loads_journaled cfg disk m ssts file next kind orphans work base loads
          (fun none => by rw [leftover] at none; cases none) (fun nothing => ?_)
        cases there : disk walName with
        | none => exact .inl rfl
        | some log =>
            rcases aligned with ends | ⟨_, some⟩
            · have data := own_log disk own log there (ends log there)
              rw [(List.append_eq_nil_iff.mp nothing).2] at data
              exact .inr ⟨log.synced, by rw [← data]⟩
            · exact absurd nothing some
  · simpa [Split.all] using writes

end Constructor

-- What a crash leaves of a complete store.
structure Leftover (image : Disk Bytes) (m : ManifestData) (text : Bytes) (ssts : List SSTable) (file : File)
    (base : List Write) :
    Prop where
  committed : Committed True image m text ssts
  deep : DeepStore m ssts
  present : image (vlogName m.currentGen) = some file
  holds : TablesHold (ValueLog.opened (vlogName m.currentGen) m.currentGen file.data) base ssts
  fits : ∀ write ∈ base, Logged (writeRecord write)
  own : OwnRecords image

theorem crash_logs (disk image : Disk Bytes) (cut : CrashImage disk image) : WholeLogs image := by
  intro name _ file there
  cases before : disk name with
  | none =>
      rw [crash_none disk image cut name before] at there
      cases there
  | some old =>
      obtain ⟨kept, _, high, after⟩ := crash_some disk image cut name old before
      rw [after] at there
      cases there
      rw [List.length_take, Nat.min_eq_left high]

theorem restarts_agree (disk : Disk Bytes) (restarts : Restarts disk) :
    Agree (replayFile disk flushingWalName) (replayFile disk walName) := by
  rcases restarts with none | ⟨_, agree⟩
  · intro key first second older
    rw [replay_file_none disk flushingWalName none] at older
    cases older
  · exact agree

section Opened

variable (cfg : Config) (disk : Disk Bytes) (next : Sys) (m : ManifestData) (text : Bytes)
    (ssts : List SSTable) (file : File)
variable (base : List Write) (left : Leftover disk m text ssts file base) (valid : disk.Valid)
    (opens : Opens cfg disk next)
variable (history : List Write) (p : Nat)

include left valid opens in
theorem opened_salvages (logs : WholeLogs disk)
    (agree : Agree (replayFile disk flushingWalName) (replayFile disk walName))
    (same : ∀ key, valueOf (base ++ replayedWrites disk) key = valueOf history key) (bound : p ≤ history.length) :
    Throughout (fun d => ∃ m text ssts, Committed True d m text ssts ∧
      Salvages history p (d walName) (d flushingWalName) m text ssts) disk next.todo := by
  have cuts :=
    (constructor_cuts cfg disk next m text ssts left.committed file left.present base left.holds valid logs opens).1
  have own := opened_own_records cfg disk next m text ssts left.committed file left.present valid opens left.own
  have fits : ∀ write ∈ base ++ replayedWrites disk, Logged (writeRecord write) := by
    intro write member
    rcases List.mem_append.mp member with old | new
    · exact left.fits write old
    · exact replayed_logged disk write new
  intro done part
  exact cut_salvages history p base _ _ _ (cuts done part) agree fits (own done part) same bound

include left valid opens in
theorem opened_whole_logs (logs : WholeLogs disk) : WholeLogs (applyAll disk next.todo) := by
  have cuts :=
    (constructor_cuts cfg disk next m text ssts left.committed file left.present base left.holds valid logs opens).1
  cases throughout_last _ _ _ cuts with
  | before resumes _ => exact resumes.logs
  | committed resumes _ | truncated resumes _ | finished resumes _ => exact resumes.logs

end Opened

theorem kept_promised (good : Good) (empty : Prop) (s : Sys) (split : Split) (kept : Kept good empty s split)
    (logs : WholeLogs (applyAll s.disk s.todo)) : Promised split.all.length split (applyAll s.disk s.todo) := by
  obtain ⟨synced, wal⟩ := kept.journaled.wal
  exact durable_promised split _ synced wal (Nat.le_of_eq (logs walName (by decide) _ wal).symm)

theorem fresh_salvages (history : List Write) (nothing : ∀ key, valueOf history key = none) (log : File)
    (empty : log.data = []) :
    Salvages history history.length (some log) none (manifestOf DB.fresh) [] [] := by
  have held := (start_held (smallStore 1 1) _ (fresh_starts (smallStore 1 1))).1
  refine recoverable_salvages [] history 0 history.length _ (parallel_whole [] history (fun key => (nothing key).symm))
    (Nat.le_refl _) _ _ _ _ _ ?_
  obtain ⟨_, synced⟩ := log
  cases empty
  have replays : Replays [] (0 + (history.length - history.length)) 0 (some ⟨[], synced⟩) none :=
    ⟨[], [], [], [], 0, rfl, Nat.le_refl _, Nat.le_refl _, by simp, Nat.le_refl _, .inl ⟨rfl, rfl⟩,
      .inr ⟨synced, rfl, Nat.zero_le _⟩⟩
  exact recoverable_at _ DB.fresh _ 0 _ held fresh_sound 0 _ [] List.nil_prefix _ _ [] (List.forall_mem_nil _) replays

theorem blank_kept (good : Good) (empty : Prop) (cfg : Config) (disk : Disk Bytes) (next : Sys) (blank : Blank disk)
    (opens : Opens cfg disk next) (inv : SysInv True good empty next) : Kept good empty next ⟨[], [], []⟩ := by
  obtain ⟨listing, lists, opened⟩ := opens.opened
  rw [open_blank cfg listing disk blank lists, Except.ok.injEq, Prod.mk.injEq] at opened
  obtain ⟨db, todo⟩ := opened
  have held := (start_held cfg _ (fresh_starts cfg)).1
  obtain ⟨during, _, made⟩ := blank_ops_throughout listing disk blank lists
  have before := throughout_last _ _ _ during
  have logs : ∀ name ∈ walFiles, applyAll disk next.todo name = applyAll disk (blankOps listing) name := by
    intro name member
    rw [← todo, apply_all_append]
    refine apart_frame walFiles _ _ (fun op inside name touched wal => ?_) name member
    rcases manifest_files _ op inside name touched with rfl | rfl <;> exact absurd wal (by decide)
  obtain ⟨log, there⟩ := Option.isSome_iff_exists.mp made
  refine ⟨inv, opens.limits, by rw [opens.cfg, ← db]; exact held, ⟨log.synced, ?_⟩, ?_, List.forall_mem_nil _⟩
  · rw [opens.disk, logs walName (by decide), there]
    obtain ⟨data, synced⟩ := log
    cases before.wal _ there
    rfl
  · rw [opens.disk, logs flushingWalName (by decide), ← db]
    cases gone : applyAll disk (blankOps listing) flushingWalName with
    | none => rfl
    | some other => exact absurd (before.few flushingWalName (by rw [gone]; rfl)) (by decide)

theorem layered_any (s : Sys) (layered : Running True Layered DeepStore s) : SysInv True anyStore True s :=
  inv_imp _ anyStore _ True s layered.inv (fun _ _ _ _ _ _ => trivial) id

theorem loads_log (cfg : Config) (disk : Disk Bytes) (m : ManifestData) (ssts : List SSTable) (file : File) (next : Sys)
    (kind : Kind) (orphans work : List DiskOp) (loads : Loads True cfg disk m ssts file next kind orphans work) :
    applyAll disk next.todo walName = (FsOp.create walName).apply disk walName ∨
      applyAll disk next.todo walName = some ⟨[], 0⟩ := by
  have dropped : ∀ d : Disk Bytes, applyAll d (dropFlushing (disk flushingWalName).isSome) walName = d walName := by
    intro d
    refine apply_all_frame d _ walName (fun op member touched => ?_)
    rw [dropFlushing] at member
    split at member
    · rcases List.mem_pair.mp member with rfl | rfl <;> exact absurd touched (by decide)
    · cases member
  rw [loads.todo, apply_all_append, apply_all_append, dropped, apply_all_append]
  rcases loads.plain with rfl | rfl
  · exact .inr (set_same (applyAll (applyAll disk (startOps m orphans)) work) walName _)
  · refine .inl ?_
    simp only [Kind.walOps, apply_all_nil]
    rw [apart_frame walFiles _ work loads.apart walName (by decide)]
    exact loads.start walName (by decide)

theorem promised_again (p : Nat) (split after : Split) (disk later : Disk Bytes) (synced : Nat)
    (promised : Promised p split disk) (wal : later walName = some ⟨writesBytes after.active, synced⟩)
    (fits : ∀ write ∈ split.active, Logged (writeRecord write))
    (fitsAfter : ∀ write ∈ after.active, Logged (writeRecord write)) (all : after.all = split.all)
    (free : after.sealed = []) (log : later walName = disk walName ∨ later walName = some ⟨[], 0⟩) :
    Promised p after later := by
  have bound := promised_bound p split disk promised
  have active := replay_file_writes later walName after.active synced fitsAfter wal
  rcases log with same | emptied
  · obtain ⟨before, sure, there, within, durable, low⟩ := promised
    have still : after.active = split.active := by
      rw [← active, replay_file_same disk later walName same,
        replay_file_writes disk walName split.active before fits there]
    have lengths := congrArg List.length all
    rw [length_all, length_all, still, free, List.length_nil] at lengths
    refine ⟨before, sure, by rw [same, there, still], by rw [still]; exact within, by rw [still]; exact durable, ?_⟩
    rw [free, List.length_nil]
    omega
  · have none : after.active = [] := by rw [← active, replay_file_empty later walName 0 emptied]
    have saved := durable_promised after later 0 (by rw [none]; exact emptied) (by rw [none]; exact Nat.le_refl _)
    exact promised_le _ p after later (by rw [all]; exact bound) saved

section Closed

variable (good : Good) (empty : Prop) (s next : Sys) (cfg : Config) (split : Split) (kept : Kept good empty s split)
    (closed : Closed s)
variable (opens : Opens cfg s.disk next)

include kept closed opens in
theorem reopened_recoverable (p : Nat) (promised : Promised p split s.disk)
    (fits : ∀ write ∈ split.all, Logged (writeRecord write)) (none : s.disk flushingWalName = none) :
    Throughout (fun d => ∃ m text ssts, Committed True d m text ssts ∧
      Recoverable split.all p (d walName) (d flushingWalName) m text ssts) s.disk next.todo := by
  have journaled := free_journaled _ _ s split kept closed.todo
  obtain ⟨i, log, sound, backed⟩ := kept.inv.state
  rw [closed.todo, apply_all_nil] at backed
  obtain ⟨seq, text, _, known, committed⟩ := backed.committed
  obtain ⟨synced, present⟩ := backed.vlog
  obtain ⟨listing, _, opened⟩ := opens.opened
  obtain ⟨orphans, kind, front, swept, plain, move, shape, _, clean⟩ :=
    opened_move cfg listing s.disk _ text _ committed _ present next.db next.todo opened
  obtain ⟨rfl, _⟩ := clean (by rw [none]; rfl)
  obtain ⟨_, idle⟩ := flush_keeps_slot cfg _ next.db .idle front [] plain move
  have steps : next.todo = startOps (manifestAt seq s.db) orphans := by
    rw [shape, (idle rfl).2, none]
    simp [dropFlushing]
  obtain ⟨during, _⟩ := start_ops_committed listing s.disk _ text _ committed _ present orphans swept
  have sameLogs : Throughout (fun d => ∀ name ∈ walFiles, d name = s.disk name) s.disk next.todo := by
    obtain ⟨active, there⟩ := journaled.wal
    obtain ⟨_, apart⟩ := orphans_apart s.disk _ text _ committed.prepared listing orphans swept
    refine throughout_kept _ s.disk next.todo (fun _ _ => rfl) (fun op member d same name inside => ?_)
    rw [steps] at member
    rcases List.mem_cons.mp member with rfl | rest
    · rw [create_present d walName _ ((same walName (by decide)).trans there)]
      exact same name inside
    rw [apply_frame d op name ?_]
    · exact same name inside
    intro touched
    rcases List.mem_cons.mp rest with rfl | orphan
    · have kinds : ∀ other ∈ walFiles, other[0]? ≠ some 0x76 := by decide
      rw [List.mem_singleton.mp touched] at inside
      exact kinds _ inside (vlog_first _)
    · exact apart op orphan name touched inside
  rw [steps] at sameLogs ⊢
  intro done part
  refine ⟨_, text, _, during done part, ?_⟩
  rw [sameLogs done part walName (by decide), sameLogs done part flushingWalName (by decide),
    ← List.append_nil split.all] at *
  exact recoverable_at s.cfg s.db split i log kept.held sound seq p text known _ _ [] fits
    (replays_before s.db split s.disk journaled (kept_free s split kept) p promised [])

include kept closed in
theorem closed_leftover (layered : Running True Layered DeepStore s)
    (fits : ∀ write ∈ split.all, Logged (writeRecord write)) :
    ∃ m text ssts file, Leftover s.disk m text ssts file split.done := by
  have journaled := free_journaled _ _ s split kept closed.todo
  obtain ⟨i, log, sound, backed⟩ := kept.inv.state
  rw [closed.todo, apply_all_nil] at backed
  obtain ⟨seq, text, _, _, committed⟩ := backed.committed
  obtain ⟨synced, present⟩ := backed.vlog
  obtain ⟨k, other, stamp, otherSound, hist⟩ := kept.held.refined
  obtain ⟨rfl, rfl⟩ := sound_unique s.db k i other log otherSound sound
  have grows : Grows other (ValueLog.opened (vlogName s.db.currentGen) s.db.currentGen other.file) :=
    ⟨sound.name.symm, sound.gen.symm, List.prefix_rfl⟩
  refine ⟨manifestAt seq s.db, text, _, ⟨other.file, synced⟩, committed, layered_saved s.db seq layered.holds, present,
    tables_hold_grows _ _ _ _ grows (hist_tables s.db other _ _ _ stamp hist), fun write member =>
    fits write (by simp [Split.all, member]),
    fun file there => ?_⟩
  obtain ⟨active, wal⟩ := journaled.wal
  rw [wal] at there
  cases there
  obtain ⟨n, replayed⟩ :=
    cut_own_records split.active (fun write member => fits write (by simp [Split.all, member])) _ List.prefix_rfl
  exact ⟨_, replayed⟩

end Closed

end Tombstash
