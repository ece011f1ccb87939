import Tombstash.SessionInvariant

set_option autoImplicit false

namespace Tombstash

variable {serial : Prop}

-- A property of states that moves keep and that a MANIFEST with its tables
-- carries from one session to the next.
structure Carried (serial : Prop) (P : DB → Prop) (store : ManifestData → List SSTable → Prop) : Prop where
  fresh : P DB.fresh
  moves : ∀ cfg found db i log kind next ops garbage, Sound serial db i log → (serial → kind.Picks → inFlight db = []) →
    Move cfg found db kind next ops garbage → P db → P next
  saved : ∀ db seq, P db → store (manifestAt seq db) (db.sstables.map Table.sst)
  loaded : ∀ disk m text ssts file replayed, Committed serial disk m text ssts →
    disk (vlogName m.currentGen) = some file →
    (∀ write ∈ replayed, Logged (writeRecord write)) → store m ssts → P (loadedDb m ssts file.data replayed)

def storeGood (store : ManifestData → List SSTable → Prop) : Good := fun _ _ m _ ssts => store m ssts

theorem carried_nothing : Carried serial (fun _ => True) (fun _ _ => True) :=
  ⟨trivial, fun _ _ _ _ _ _ _ _ _ _ _ _ _ => trivial, fun _ _ _ => trivial, fun _ _ _ _ _ _ _ _ _ _ => trivial⟩

theorem flush_keeps_workers (cfg : Config) (found : Bytes) (db next : DB) (kind : Kind) (ops : List DiskOp)
    (plain : kind = .flushed ∨ kind = .idle) (move : Move cfg found db kind next ops []) :
    next.flusher = db.flusher ∧ inFlight next = inFlight db := by
  rcases plain with rfl | rfl <;> cases move <;> exact ⟨rfl, rfl⟩

theorem idle_work_files (db : DB) (flusher : db.flusher = none) (merges : inFlight db = []) : workFiles db = [] := by
  simp [workFiles, flusherFiles, flusher, mergeFiles, merges]

theorem idle_known (db : DB) (merges : inFlight db = []) : Known db := by
  intro job running
  rw [merges] at running
  cases running

theorem idle_fence (db : DB) (m : ManifestData) (flusher : db.flusher = none) (merges : inFlight db = [])
    (named : ∀ entry ∈ m.tables, ∃ seq, entry.name = sstName seq) : Fence db [] m :=
  ⟨fun _ _ => ⟨by simp [idle_work_files db flusher merges], by simp⟩, by simp, named,
    fun flushing => absurd flusher flushing⟩

theorem committed_db_named (db : DB) (log : ValueLog) (disk : Disk Bytes) (committed : CommittedDb serial db log disk)
    (seq : Nat) :
    ∀ entry ∈ (manifestAt seq db).tables, ∃ seq, entry.name = sstName seq := by
  obtain ⟨other, _, _, _, holds⟩ := committed
  intro entry member
  obtain ⟨number, _, same⟩ := holds.prepared.named entry member
  exact ⟨number, same⟩

section Sessions

variable {P : DB → Prop} {store : ManifestData → List SSTable → Prop} (carried : Carried serial P store)

include carried in
theorem open_committed_inv (cfg : Config) (disk : Disk Bytes) (s : Sys) (m : ManifestData) (text : Bytes)
    (ssts : List SSTable) (committed : Committed serial disk m text ssts) (valid : disk.Valid)
    (names : ∀ name, (disk name).isSome = true → StoreName name) (held : store m ssts) (opens : Opens cfg disk s) :
    SysInv serial (storeGood store) True s ∧ P s.db := by
  obtain ⟨⟨listing, lists, opened⟩, limits, rfl, rfl, noDoomed, noGarbage⟩ := opens
  obtain ⟨file, present, _⟩ := committed.prepared.vlog
  obtain ⟨orphans, kind, front, swept, plain, move, shape, _⟩ :=
    opened_move s.cfg listing s.disk m text ssts committed file present
    s.db s.todo opened
  have listable := within_limits_listable s.db limits
  obtain ⟨during, atLog, _⟩ := start_ops_committed listing s.disk m text ssts committed file present orphans swept
  have started := throughout_last _ _ _ during
  have loadedSound := loaded_sound _ m text ssts started file atLog (replayedWrites s.disk)
  have loadedNumbered := loaded_numbered _ m text ssts started file (replayedWrites s.disk)
  have loadedBounds := loaded_bounds _ m text ssts started file (replayedWrites s.disk)
  obtain ⟨j, later, sound, backed, phased⟩ :=
    opened_advances s.cfg listing s.disk m text ssts committed file present s.db orphans
    front kind (replayedWrites s.disk) swept plain move valid listable
  obtain ⟨sameFlusher, sameJobs⟩ := flush_keeps_workers s.cfg [] _ s.db kind front plain move
  have flusher : s.db.flusher = none := sameFlusher
  have merges : inFlight s.db = [] := sameJobs
  have noWork := idle_work_files s.db flusher merges
  have numbered := move_numbered s.cfg _ s.db 0 _ kind front [] loadedSound loadedNumbered move listable.1
  have dropFiles := drop_flushing_files (s.disk flushingWalName).isSome
  have dropLive := wal_files_live s.db numbered _ dropFiles
  have dropped : Throughout (CommittedDb serial s.db later) (applyAll (applyAll s.disk (startOps m orphans)) front)
      (dropFlushing (s.disk flushingWalName).isSome) := committed_db_apart s.db later _ _ backed.committed dropLive
  have fence : ∀ other : ManifestData, (∀ entry ∈ other.tables, ∃ seq, entry.name = sstName seq) →
    Fence s.db s.garbage other := by
    rw [noGarbage]
    exact fun other => idle_fence s.db other flusher merges
  have loadedCommitted := (loaded_backed _ m text ssts started file atLog (replayedWrites s.disk)).committed
  have before := carried.loaded _ m text ssts file (replayedWrites s.disk) started atLog (replayed_logged s.disk) held
  have after := carried.moves s.cfg [] _ 0 _ kind s.db front [] loadedSound
    (fun _ picks => by rcases plain with rfl | rfl <;> cases picks) move before
  refine ⟨?_, after⟩
  refine
    { state := ⟨j, later, sound, ?_⟩
      numbered := numbered
      bounds := move_level_bounds s.cfg _ s.db 0 _ kind front [] loadedSound loadedBounds move
      listable := listable
      known := idle_known s.db merges
      valid := valid
      names := names
      touches := ?_
      guarded := ?_
      apart := by rw [noWork]; simp [Apart]
      away := by rw [noGarbage]; simp [Apart]
      stale := by rw [noGarbage, noDoomed]; simp }
  · rw [shape, apply_all_append, apply_all_append]
    exact backed_apart s.db j later _ _ sound backed dropLive (by rw [noWork]; simp [Apart])
  · intro op member name touched
    rw [shape, List.mem_append, List.mem_append] at member
    rcases member with start | inFront | drop
    · rcases List.mem_cons.mp start with rfl | rest
      · exact .inl (by rw [List.mem_singleton.mp touched]; decide)
      rcases List.mem_cons.mp rest with rfl | orphan
      · exact .inr (.inr ⟨_, List.mem_singleton.mp touched⟩)
      · obtain ⟨gone, listed, rfl, _⟩ := (cleanup_spec _ _ listing orphans swept op).mp orphan
        rw [List.mem_singleton.mp touched]
        exact names gone ((lists.2 gone).mp listed)
    · refine touch_store_name _ s.db ?_ name
        (locked_touches s.cfg _ s.db 0 _ kind front [] loadedSound move ?_ op inFront name
        touched)
      · exact committed.prepared.fits.nextSeq
      · rcases plain with rfl | rfl <;> decide
    · exact .inl (List.mem_append_left _ (dropFiles op drop name touched))
  · rw [shape]
    refine (throughout_append _ _ _ _).mpr ⟨?_, (throughout_append _ _ _ _).mpr ⟨?_, ?_⟩⟩
    · refine throughout_imp _ _ _ _ during
        (fun d holds => .inr ⟨m, text, ssts, holds, fence m (fun entry member => ?_), held⟩)
      obtain ⟨seq, _, same⟩ := committed.prepared.named entry member
      exact ⟨seq, same⟩
    · exact phased_guarded (storeGood store) True _ s.db s.db _ later kind.walOps s.garbage _ front numbered
        (wal_ops_files kind) phased (fun seq => fence _ (committed_db_named _ _ _ loadedCommitted seq))
        (fun seq => fence _ (committed_db_named s.db later _ backed.committed seq))
        (fun seq _ _ => carried.saved _ seq before) (fun seq _ _ _ _ => carried.saved s.db seq after)
    · refine throughout_imp _ _ _ _ dropped (fun d holds => ?_)
      obtain ⟨seq, rest, _, _, there⟩ := holds
      exact .inr ⟨_, rest, _, there, fence _ (committed_db_named s.db later _ backed.committed seq),
        carried.saved s.db seq after⟩

end Sessions

theorem open_blank_inv (good : Good) (empty : Prop) (cfg : Config) (disk : Disk Bytes) (s : Sys) (blank : Blank disk)
    (nothing : empty) (valid : disk.Valid) (opens : Opens cfg disk s)
    (first : ∀ file, file.data = [] → good (some file) none (manifestOf DB.fresh) [] []) :
    SysInv serial good empty s ∧ s.db = DB.fresh := by
  obtain ⟨⟨listing, lists, opened⟩, limits, rfl, rfl, noDoomed, noGarbage⟩ := opens
  rw [open_blank s.cfg listing s.disk blank lists] at opened
  cases s with
  | mk cfg db disk todo doomed garbage =>
      simp only [Except.ok.injEq, Prod.mk.injEq] at opened noDoomed noGarbage
      obtain ⟨rfl, rfl⟩ := opened
      subst noDoomed noGarbage
      obtain ⟨early, log, wal⟩ := blank_ops_throughout listing disk blank lists
      have before := throughout_last _ _ _ early
      obtain ⟨late, backed⟩ := @blank_commits serial _ before log (apply_all_valid _ _ valid)
      have noWork : workFiles DB.fresh = [] := idle_work_files DB.fresh rfl rfl
      have store : ∀ name ∈ blankFiles, StoreName name := by
        intro name member
        simp only [blankFiles, List.mem_cons, List.not_mem_nil, or_false] at member
        rcases member with rfl | rfl | rfl
        · exact .inl (by decide)
        · exact .inr (.inr ⟨0, rfl⟩)
        · exact .inl (by decide)
      refine ⟨?_, rfl⟩
      refine
        { state := ⟨0, _, fresh_sound, ?_⟩
          numbered := fresh_numbered
          bounds := ⟨by simp [DB.fresh], by simp [inFlight, DB.fresh]⟩
          listable := within_limits_listable _ limits
          known := idle_known DB.fresh rfl
          valid := valid
          names := fun name there => store name (blank.few name there)
          touches := ?_
          guarded := ?_
          apart := by simp [Apart, noWork]
          away := by simp [Apart]
          stale := by simp }
      · rw [apply_all_append]
        exact backed
      · intro op member name touched
        rcases List.mem_append.mp member with start | manifest
        · rcases List.mem_append.mp start with create | rest
          · rw [List.mem_singleton.mp create] at touched
            exact .inl (by rw [List.mem_singleton.mp touched]; decide)
          rcases List.mem_append.mp rest with unlink | log
          · obtain ⟨gone, inside, rfl⟩ := List.mem_map.mp unlink
            rw [List.mem_singleton.mp touched]
            exact store gone (blank.few gone ((lists.2 gone).mp (List.mem_filter.mp inside).1))
          · split at log
            · cases log
            · rw [List.mem_singleton.mp log] at touched
              exact .inr (.inr ⟨0, List.mem_singleton.mp touched⟩)
        · rcases manifest_files _ op manifest name touched with rfl | rfl
          · exact .inl (by decide)
          · exact .inl (by decide)
      · refine (throughout_append _ _ _ _).mpr
          ⟨throughout_imp _ _ _ _ early (fun d holds => .inl ⟨holds, noWork, nothing⟩), ?_⟩
        intro done part
        rcases late done part with blank | ⟨seq, text, le, known, committed⟩
        · exact .inl ⟨blank, noWork, nothing⟩
        · -- The write-ahead log is as the first steps have left it.
          have still : Apart walFiles done := by
            intro op member name touched inside
            rcases manifest_files _ op (part.subset member) name touched with
              rfl | rfl <;> exact absurd inside (by decide)
          have zero : seq = 0 := Nat.le_zero.mp le
          have nil : text = [] := List.prefix_nil.mp known
          subst zero nil
          refine .inr
            ⟨_, [], _, committed, idle_fence DB.fresh _ rfl rfl (by simp [manifestAt, manifestOf, DB.fresh]), ?_⟩
          rw [apart_frame _ _ done still walName (by decide), apart_frame _ _ done still flushingWalName (by decide)]
          obtain ⟨file, present⟩ := Option.isSome_iff_exists.mp wal
          have noFlushing : applyAll disk (blankOps listing) flushingWalName = none := by
            cases there : applyAll disk (blankOps listing) flushingWalName with
            | none => rfl
            | some other => exact absurd (before.few flushingWalName (by rw [there]; rfl)) (by decide)
          rw [present, noFlushing]
          exact first file (before.wal file present)

theorem takes_locked (label : Label) (first second : Kind) (takes : label.Takes first second)
    (locked : label.kind ≠ .worked) :
    first ≠ .worked ∧ first ≠ .collected ∧ second ≠ .worked := by
  have plain := takes_plain label first second takes
  refine ⟨?_, ?_, fun worked => by rw [worked] at plain; exact plain⟩
  · rcases takes.1 with rfl | ⟨_, rfl⟩
    · exact locked
    · nofun
  · rcases takes.1 with rfl | ⟨_, rfl⟩
    · cases label <;> nofun
    · nofun

theorem takes_worked (label : Label) (first second : Kind) (takes : label.Takes first second)
    (off : label.kind = .worked) :
    first = .worked ∧ second = .idle := by
  refine ⟨?_, ?_⟩
  · rcases takes.1 with rfl | ⟨flushes, _⟩
    · exact off
    · rw [off] at flushes
      cases flushes
  · rcases takes.2 with rfl | rfl
    · cases label <;> first | rfl | cases off
    · rfl

theorem lock_moves (s : Sys) (good : Good) (empty : Prop) (label : Label) (effect : Effect)
    (inv : SysInv serial good empty s) (limits : WithinLimits s.db) (locked : label.kind ≠ .worked)
    (finds : GcFinds s label) (done : step s.cfg s.db label = some effect)
    (calm : serial → label.Picks → inFlight s.db = []) :
    ∃ middle front back early late first second, label.Takes first second ∧
      Move s.cfg label.found s.db first middle front early ∧ Move s.cfg label.found middle second effect.db back late ∧
      effect.ops = front ++ back ∧ effect.garbage = early ++ late ∧
      Meets serial label.found s.disk s.db middle first ∧
      Meets serial label.found (applyAll s.disk front) middle effect.db second := by
  obtain ⟨⟨middle, front, back, early, late, first, second, takes, one, two, ops, marked, count⟩, bounded⟩ :=
    step_moves s.cfg s.db label effect done
  obtain ⟨i, log, sound, _⟩ := inv.state
  obtain ⟨firstLocked, notCollected, secondLocked⟩ := takes_locked label first second takes locked
  have listable : Listable middle := by
    refine ⟨lt_of_le_of_lt (move_counter s.cfg middle effect.db second back late two) bounded.1, ?_⟩
    have few := bounded.2
    have before := limits.2
    omega
  have sameGen : middle.currentGen = s.db.currentGen := by
    rcases move_gen s.cfg s.db middle i log first front early sound one with same | ⟨_, _, collected⟩
    · exact same
    · exact absurd collected notCollected
  obtain ⟨k, grown, soundMiddle, _⟩ := move_sound s.cfg s.db i log first middle front early sound one
    (fun one picks => calm one ((takes_picks label first second takes).1 picks))
  refine ⟨middle, front, back, early, late, first, second, takes, one, two, ops, marked,
    ⟨firstLocked, fun one picks => calm one ((takes_picks label first second takes).1 picks), listable,
      fun different => absurd sameGen different⟩,
    ⟨secondLocked, fun _ picks => absurd picks (plain_kind second (takes_plain label first second takes)).2.1,
      within_limits_listable _ bounded, fun different => ?_⟩⟩
  -- Only gc changes the generation, and its flush leaves the new path alone.
  rcases move_gen s.cfg middle effect.db k grown second back late soundMiddle two with same | ⟨up, _, collected⟩
  · exact absurd same different
  obtain ⟨existing, rfl⟩ : ∃ existing, label = .gc existing := by
    rw [collected] at takes
    rcases takes.2 with after | idle
    · cases label <;> first | exact ⟨_, rfl⟩ | cases after
    · cases idle
  obtain ⟨here, room⟩ := finds existing rfl
  rw [up, sameGen]
  refine ⟨?_, room⟩
  have untouched : ∀ op ∈ front, vlogName (s.db.currentGen + 1) ∉ op.touches := by
    intro op member touched
    rcases locked_touches s.cfg s.db middle i log first front early sound one firstLocked op member _ touched with
      other | ⟨files, _⟩ | ⟨same, _⟩
    · exact (other_first _ other).2 (vlog_first _)
    · exact absurd ((vlog_first _).symm.trans (table_file_first _ _ files)) (by decide)
    · rw [sameGen] at same
      exact absurd (vlog_name_injective _ _ same) (by simp)
  rw [fileData, apply_all_frame s.disk front _ untouched]
  exact here

theorem quiet_wal_files (good : Good) (empty : Prop) (found : Bytes) (s : Sys) (next : DB) (kind : Kind)
    (ops : List DiskOp) (garbage : List Bytes) (quiet : kind = .worked ∨ kind = .idle)
    (inv : SysInv serial good empty s) (move : Move s.cfg found s.db kind next ops garbage) :
    Apart walFiles ops ∧ applyAll (applyAll s.disk ops) s.todo = applyAll (applyAll s.disk s.todo) ops := by
  obtain ⟨touches, swaps⟩ := quiet_touches good empty s next kind ops garbage quiet inv move
  refine ⟨fun op member name touched wal => ?_, apply_all_swap s.disk ops s.todo swaps⟩
  exact work_file_kinds s.db name (touches op member name touched) (List.mem_append_left _ wal)

theorem collect_wal_files (good : Good) (empty : Prop) (s : Sys) (name : Bytes) (inv : SysInv serial good empty s)
    (marked : name ∈ s.garbage ∨ s.todo = [] ∧ name ∈ s.doomed) :
    ∀ wal ∈ walFiles, applyAll ((FsOp.unlink name).apply s.disk) s.todo wal = applyAll s.disk s.todo wal := by
  have stale : Stale s.db name := inv.stale name (List.mem_append.mpr (marked.imp id And.right))
  have swap : applyAll ((FsOp.unlink name).apply s.disk) s.todo = (FsOp.unlink name).apply
    (applyAll s.disk s.todo) := by
    refine apply_all_comm s.disk (.unlink name) s.todo (fun other member touched inside both => ?_)
    rw [List.mem_singleton.mp inside] at both
    rcases marked with old | ⟨done, _⟩
    · exact inv.away other member name both old
    · rw [done] at member
      cases member
  intro wal member
  rw [swap]
  refine set_other _ name wal _ (fun same => stale_kinds s.db name stale ?_)
  rw [← same]
  exact List.mem_append_left _ member

def EventCalm (serial : Prop) (s : Sys) (event : Event) : Prop :=
  serial → ∀ label, event = .lock label → label.Picks → inFlight s.db = []

theorem work_inv (good : Good) (empty : Prop) (s : Sys) (label : Label) (effect : Effect) (off : label.kind = .worked)
    (done : step s.cfg s.db label = some effect) (inv : SysInv serial good empty s) :
    SysInv serial good empty { s with db := effect.db, disk := applyAll s.disk effect.ops } := by
  obtain ⟨⟨middle, front, back, early, late, first, second, takes, one, two, ops, _, _⟩, _⟩ :=
    step_moves s.cfg s.db label effect done
  obtain ⟨rfl, rfl⟩ := takes_worked label first second takes off
  have worked := quiet_inv good empty s middle .worked front early (.inl rfl) inv one
  have idled := quiet_inv good empty _ effect.db .idle back late (.inr rfl) worked two
  rw [ops, apply_all_append]
  exact idled

theorem crash_present (disk image : Disk Bytes) (cut : CrashImage disk image) (name : Bytes)
    (there : (image name).isSome = true) :
    (disk name).isSome = true := by
  cases present : disk name with
  | some file => rfl
  | none =>
      rw [crash_none disk image cut name present] at there
      cases there

theorem blank_crash (disk image : Disk Bytes) (cut : CrashImage disk image) (blank : Blank disk) : Blank image := by
  have emptied : ∀ name, (∀ file, disk name = some file → file.data = []) → ∀ file, image name = some file →
    file.data = [] := by
    intro name old file present
    obtain ⟨was, there⟩ := Option.isSome_iff_exists.mp (crash_present disk image cut name (by rw [present]; rfl))
    obtain ⟨kept, _, _, eq⟩ := crash_some disk image cut name was there
    rw [eq] at present
    cases present
    rw [old was there, List.take_nil]
  exact ⟨fun name there => blank.few name (crash_present disk image cut name there), emptied _ blank.wal,
    emptied _ blank.vlog⟩

theorem crash_openable (good : Good) (empty : Prop) (s : Sys) (image : Disk Bytes) (inv : SysInv serial good empty s)
    (cut : CrashImage s.disk image) :
    image.Valid ∧ (∀ name, (image name).isSome = true → StoreName name) ∧
      (Blank image ∨ ∃ m text ssts, Committed serial image m text ssts ∧
        good (s.disk walName) (s.disk flushingWalName) m text ssts) := by
  refine ⟨fun name file present => le_of_eq (crash_valid s.disk image cut name file present),
    fun name there => inv.names name (crash_present s.disk image cut name there), ?_⟩
  rcases inv.guarded [] List.nil_prefix with ⟨blank, _⟩ | ⟨m, text, ssts, committed, _, holds⟩
  · exact .inl (blank_crash s.disk image cut blank)
  · exact .inr ⟨m, text, ssts, committed_crash s.disk image m text ssts cut committed, holds⟩

theorem openable_committed {P : ManifestData → Bytes → List SSTable → Prop} (disk : Disk Bytes)
    (openable : Blank disk ∨ ∃ m text ssts, Committed serial disk m text ssts ∧ P m text ssts) :
    Blank disk ∨ ∃ m text ssts, Committed serial disk m text ssts := by
  rcases openable with blank | ⟨m, text, ssts, committed, _⟩
  · exact .inl blank
  · exact .inr ⟨m, text, ssts, committed⟩

theorem inv_openable (good : Good) (empty : Prop) (s : Sys) (inv : SysInv serial good empty s) :
    Blank s.disk ∨ ∃ m text ssts, Committed serial s.disk m text ssts ∧
    good (s.disk walName) (s.disk flushingWalName) m text ssts := by
  rcases inv.guarded [] List.nil_prefix with ⟨blank, _⟩ | ⟨m, text, ssts, committed, _, holds⟩
  · exact .inl blank
  · exact .inr ⟨m, text, ssts, committed, holds⟩

section Steps

variable {P : DB → Prop} {store : ManifestData → List SSTable → Prop} (carried : Carried serial P store)

-- What every state of every session meets.
structure Running (serial : Prop) (P : DB → Prop) (store : ManifestData → List SSTable → Prop) (s : Sys) : Prop where
  inv : SysInv serial (storeGood store) True s
  limits : WithinLimits s.db
  holds : P s.db

include carried in
theorem open_running (cfg : Config) (disk : Disk Bytes) (s : Sys) (valid : disk.Valid)
    (names : ∀ name, (disk name).isSome = true → StoreName name)
    (openable : Blank disk ∨ ∃ m text ssts, Committed serial disk m text ssts ∧ store m ssts)
      (opens : Opens cfg disk s) :
    Running serial P store s := by
  rcases openable with blank | ⟨m, text, ssts, committed, held⟩
  · obtain ⟨inv, same⟩ := open_blank_inv (storeGood store) True cfg disk s blank trivial valid opens
      (fun _ _ => carried.saved DB.fresh 0 carried.fresh)
    exact ⟨inv, opens.limits, by rw [same]; exact carried.fresh⟩
  · obtain ⟨inv, holds⟩ := open_committed_inv carried cfg disk s m text ssts committed valid names held opens
    exact ⟨inv, opens.limits, holds⟩

include carried in
theorem lock_running (s : Sys) (label : Label) (effect : Effect) (running : Running serial P store s)
    (free : s.todo = []) (locked : label.kind ≠ .worked) (finds : GcFinds s label)
    (done : step s.cfg s.db label = some effect) (calm : serial → label.Picks → inFlight s.db = []) :
    Running serial P store ⟨s.cfg, effect.db, s.disk, effect.ops, effect.garbage, s.garbage ++ s.doomed⟩ := by
  obtain ⟨inv, limits, holds⟩ := running
  obtain ⟨middle, front, back, early, late, first, second, takes, one, two, ops, marked, meetsOne, meetsTwo⟩ :=
    lock_moves s (storeGood store) True label effect inv limits locked finds done calm
  obtain ⟨i, log, sound, _⟩ := inv.state
  have halfway := carried.moves _ _ s.db i log first middle front early sound meetsOne.calm one holds
  have opened :=
    first_inv (storeGood store) (storeGood store) True True s middle first front early free inv one meetsOne
    (fun _ _ _ seq _ _ => carried.saved s.db seq holds) (fun _ _ _ seq _ _ _ _ => carried.saved middle seq halfway)
  obtain ⟨j, later, soundMiddle, _⟩ := opened.state
  have after := carried.moves _ _ middle j later second effect.db back late soundMiddle meetsTwo.calm two halfway
  have closed :=
    second_inv (storeGood store) True _ effect.db second back late (takes_plain label first second takes) opened two
    meetsTwo (fun _ _ _ seq _ _ => carried.saved middle seq halfway)
    (fun _ _ _ seq _ _ _ _ => carried.saved effect.db seq after)
  rw [ops, marked]
  exact ⟨closed, (step_moves s.cfg s.db label effect done).2, after⟩

include carried in
theorem work_holds (s : Sys) (label : Label) (effect : Effect) (running : Running serial P store s)
    (off : label.kind = .worked) (done : step s.cfg s.db label = some effect) : P effect.db := by
  obtain ⟨⟨middle, front, back, early, late, first, second, takes, one, two, _⟩, _⟩ :=
    step_moves s.cfg s.db label effect done
  obtain ⟨rfl, rfl⟩ := takes_worked label first second takes off
  obtain ⟨i, log, sound, _⟩ := running.inv.state
  obtain ⟨j, later, soundMiddle, _⟩ :=
    move_sound s.cfg s.db i log .worked middle front early sound one (fun _ picks => by cases picks)
  exact carried.moves _ _ middle j later .idle effect.db back late soundMiddle (fun _ picks => by cases picks) two
    (carried.moves _ _ s.db i log .worked middle front early sound (fun _ picks => by cases picks) one running.holds)

include carried in
theorem sys_step_running (s next : Sys) (event : Event) (running : Running serial P store s)
    (calm : EventCalm serial s event) (stepped : s.Step event next) : Running serial P store next := by
  have inv := running.inv
  cases stepped with
  | lock label effect free locked finds done =>
      exact lock_running carried s label effect running free locked finds done (fun one => calm one label rfl)
  | work label effect off done =>
      exact ⟨work_inv (storeGood store) True s label effect off done inv, (step_moves s.cfg s.db label effect done).2,
        work_holds carried s label effect running off done⟩
  | io op rest todo => exact ⟨io_inv (storeGood store) True s op rest todo inv, running.limits, running.holds⟩
  | collect name marked => exact ⟨collect_inv (storeGood store) True s name inv marked, running.limits, running.holds⟩
  | reopen cfg next closed opens =>
      exact open_running carried cfg s.disk next inv.valid inv.names (inv_openable (storeGood store) True s inv) opens
  | crash cfg image next cut opens =>
      obtain ⟨valid, names, openable⟩ := crash_openable (storeGood store) True s image inv cut
      exact open_running carried cfg image next valid names openable opens

include carried in
theorem start_running (cfg : Config) (s : Sys) (starts : s.Starts cfg) : Running serial P store s :=
  open_running carried cfg (fun _ => none) s (fun _ _ present => by cases present) (fun _ there => by cases there)
    (.inl blank_nothing) starts

end Steps

theorem sys_run_induction (P : Sys → Prop) (allowed : Sys → Event → Prop)
    (kept : ∀ s event next, P s → allowed s event → s.Step event next → P next) (s last : Sys) (events : List Event)
    (holds : P s)
    (all : ∀ before event after mid, events = before ++ event :: after → s.Run before mid → allowed mid event)
    (done : s.Run events last) : P last := by
  induction events generalizing s with
  | nil =>
      cases done
      exact holds
  | cons event rest ih =>
      obtain ⟨next, stepped, remaining⟩ := done
      refine ih next (kept s event next holds (all [] event rest s rfl rfl) stepped) ?_ remaining
      intro before other after mid split reached
      exact all (event :: before) other after mid (by rw [split]; rfl) ⟨next, stepped, reached⟩

-- Whatever the interleaving.
theorem run_running {P : DB → Prop} {store : ManifestData → List SSTable → Prop} (carried : Carried False P store)
    (cfg : Config) (start last : Sys) (events : List Event) (starts : start.Starts cfg) (done : start.Run events last) :
    Running False P store last :=
  sys_run_induction (Running False P store) (fun _ _ => True)
    (fun s event next running _ stepped => sys_step_running carried s next event running (fun one => one.elim) stepped)
    start last
    events (start_running carried cfg start starts) (fun _ _ _ _ _ _ => trivial) done

-- Every pick of the run finds no merge in flight.
def CalmEvents (s : Sys) (events : List Event) : Prop :=
  ∀ before event after mid, events = before ++ event :: after → s.Run before mid → EventCalm True mid event

theorem calm_events_running {P : DB → Prop} {store : ManifestData → List SSTable → Prop}
    (carried : Carried True P store) (cfg : Config) (start last : Sys) (events : List Event) (starts : start.Starts cfg)
    (calm : CalmEvents start events) (done : start.Run events last) : Running True P store last :=
  sys_run_induction (Running True P store) (EventCalm True)
    (fun s event next running calm stepped => sys_step_running carried s next event running calm stepped) start last
    events (start_running carried cfg start starts) calm done

end Tombstash
