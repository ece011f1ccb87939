import Tombstash.PowerMoves

set_option autoImplicit false

namespace Tombstash

-- A process on a volume.
structure Power where
  sys : Sys
  volume : Volume Bytes

structure Power.Step (p : Power) (event : Event) (next : Power) : Prop where
  sys : p.sys.Step event next.sys
  volume : next.volume = runAll p.volume (p.sys.performed event)

-- Runs whose steps are all allowed, with their ledgers.
def Power.Records (allowed : Power → Event → Prop) : Power → Ledger → List Event → Power → Ledger → Prop
  | p, ledger, [], last, final => last = p ∧ final = ledger
  | p, ledger, event :: rest, last, final =>
      allowed p event ∧ ∃ next, p.Step event next ∧
        next.Records allowed (ledger.next p.sys next.sys event) rest last final

-- put and del with sync, flush(), seals and the flusher.
def Label.Basic : Label → Prop
  | .put _ _ forced | .del _ forced => forced = true
  | .flush | .wakeSeal | .flusherSnapshot | .flusherSeparate | .flusherBuild | .flusherIo | .flusherPublish => True
  | _ => False

def Event.Basic : Event → Prop
  | .lock label | .work label => label.Basic
  | .io => True
  | _ => False

-- A write finds the entry of its log durable.
def LogEntered (p : Power) : Event → Prop
  | .lock (.put _ _ _) | .lock (.del _ _) => p.volume.Settled walName
  | _ => True

-- What holds in every state of such a run, whatever the section under way has
-- left to do. Until the first write has returned nothing is promised.
structure PowerInv (p : Power) (ledger : Ledger) (split : Split) : Prop where
  kept : Kept anyStore True p.sys split
  whole : split.all = ledger.written
  merges : inFlight p.sys.db = []
  disk : p.volume.disk = p.sys.disk
  tidy : p.volume.Tidy Target
  keeps : ∀ op ∈ p.sys.todo, op.Keeps Target
  names : p.volume.Within StoreName
  fits : ∀ write ∈ ledger.written, Logged (writeRecord write)
  due : ledger.due = ledger.written.length
  safe : 0 < ledger.sure → Always (fun u => u.Leaves (Recovering ledger.written ledger.sure)) p.volume p.sys.todo
  rest : Rest (runAll p.volume p.sys.todo) p.sys.db split
  calm : p.sys.db.flusher ≠ none → (∀ op ∈ p.sys.todo, op.Writes ∧ op.touches = [walName]) ∧
    Always (fun u => FirmFiles p.sys.db u ∧ Holding ledger.written ledger.sure split.done.length u) p.volume p.sys.todo

theorem takes_basic (label : Label) (first second : Kind) (takes : label.Takes first second) (basic : label.Basic)
    (locked : label.kind ≠ .worked) : first.Basic ∧ (second = .sealed ∨ second = .idle) := by
  refine ⟨?_, ?_⟩
  · rcases takes.1 with rfl | ⟨_, rfl⟩
    · cases label <;> first | exact basic | exact absurd rfl locked | exact basic.elim
    · trivial
  · rcases takes.2 with rfl | rfl
    · cases label <;> first | exact .inl rfl | exact .inr rfl | exact basic.elim
    · exact .inr rfl

theorem takes_entered (p : Power) (label : Label) (first second : Kind) (takes : label.Takes first second)
    (entered : LogEntered p (.lock label)) : ∀ write sync, first = .wrote write sync → p.volume.Settled walName := by
  rintro write sync rfl
  rcases takes.1 with same | ⟨_, same⟩
  · cases label <;> first | exact entered | cases same
  · cases same

section Sections

variable (p : Power) (ledger : Ledger) (split : Split) (label : Label) (effect : Effect) (middle : DB)
    (first second : Kind)
variable (work rest : List DiskOp) (early late : List Bytes)

theorem section_weathers (inv : PowerInv p ledger split) (free : p.sys.todo = [])
    (parts : Section p.sys split label effect middle first second work rest early late) (basic : label.Basic)
    (locked : label.kind ≠ .worked) (entered : LogEntered p (.lock label))
    (fits : ∀ write ∈ split.all ++ label.write.toList, Logged (writeRecord write)) :
    Weathered p.volume effect.db (second.shift (first.shift split)) split.all.length effect.ops ∧
    inFlight effect.db = [] := by
  obtain ⟨basicFirst, seals⟩ := takes_basic label first second parts.takes basic locked
  obtain ⟨i, log, sound, backed⟩ := inv.kept.inv.state
  have resting := inv.rest
  have journaled := free_journaled anyStore True p.sys split inv.kept free
  have valid := inv.kept.inv.valid
  have meets := parts.meetsOne
  have meetsTwo := parts.meetsTwo
  have journaledHalf := parts.journaledHalf
  rw [free] at resting
  rw [free, apply_all_nil] at backed
  rw [← inv.disk] at backed journaled valid meets meetsTwo journaledHalf
  rw [← parts.writesHalf] at fits
  obtain ⟨j, later, half⟩ :=
    locked_moved p.sys.cfg p.sys.db middle i log first p.volume.disk _ early sound backed inv.kept.inv.numbered
    inv.kept.inv.bounds inv.kept.inv.known valid parts.one meets
  have one := move_weathers p.sys.cfg p.sys.db middle i j log later split p.volume split.all.length first _ early
    inv.tidy resting sound
    backed inv.kept.held parts.heldHalf (Nat.le_refl _) journaled fits basicFirst inv.merges parts.one half
    valid meets.listable.1 (takes_entered p label first second parts.takes entered)
  have merges := basic_merges p.sys.cfg p.sys.db middle first _ early (.inl basicFirst) inv.merges parts.one
  have basicSecond : second.Basic := by rcases seals with rfl | rfl <;> trivial
  refine ⟨?_, basic_merges p.sys.cfg middle effect.db second _ late (.inl basicSecond) merges parts.two⟩
  rw [parts.ops]
  rcases seals with rfl | rfl
  · have proper := inv.tidy.proper
    have tidy := tidy_run_all p.volume _ inv.tidy one.keeps
    have backedHalf := half.backed
    have validHalf := apply_all_valid _ (work ++ first.walOps) valid
    rw [← run_all_disk p.volume proper] at backedHalf validHalf journaledHalf meetsTwo
    obtain ⟨k, last, whole⟩ :=
      locked_moved p.sys.cfg middle effect.db j later .sealed _ _ late half.sound backedHalf half.numbered half.bounds
      half.known validHalf parts.two meetsTwo
    have longer : split.all.length ≤ (first.shift split).all.length := by
      rw [parts.writesHalf, List.length_append]
      exact Nat.le_add_right _ _
    have same : (Kind.sealed.shift (first.shift split)).all = (first.shift split).all :=
      parts.writes.trans parts.writesHalf.symm
    have two := move_weathers p.sys.cfg middle effect.db j k later last (first.shift split) _ split.all.length .sealed _
      late tidy one.rest
      half.sound backedHalf parts.heldHalf parts.held longer journaledHalf (by rwa [same]) trivial merges
      parts.two whole validHalf
      meetsTwo.listable.1 (fun _ _ never => by cases never)
    have idle : effect.db.flusher = none := by
      have move := parts.two
      generalize rest ++ Kind.sealed.walOps = ops at move
      generalize effect.db = next at move
      cases move with
      | sealed filled slot => exact half.sound.idle slot
    refine ⟨(always_append _ _ _ _).mpr ⟨?_, two.safe⟩, ?_, fun op member => ?_, fun running => absurd idle running⟩
    · rw [same]
      exact one.safe
    · rw [run_all_append]
      exact two.rest
    · exact (List.mem_append.mp member).elim (one.keeps op) (two.keeps op)
  · rw [idle_ops p.sys.cfg middle effect.db _ late parts.two, List.append_nil]
    exact idle_weathers p.sys.cfg middle effect.db _ p.volume _ _ _ late parts.two one

end Sections

theorem calm_recovers (p : Power) (ledger : Ledger) (split : Split) (kept : Kept anyStore True p.sys split)
    (whole : split.all = ledger.written) (disk : p.volume.disk = p.sys.disk) (proper : p.volume.Proper)
    (fits : ∀ write ∈ ledger.written, Logged (writeRecord write)) (onLog : ∀ op ∈ p.sys.todo, op.touches = [walName])
    (calm : Always (fun u => FirmFiles p.sys.db u ∧ Holding ledger.written ledger.sure split.done.length u)
      p.volume p.sys.todo) :
    Always (fun u => u.Leaves (Recovering ledger.written ledger.sure)) p.volume p.sys.todo := by
  obtain ⟨i, log, sound, backed⟩ := kept.inv.state
  have apart : Apart (liveFiles p.sys.db) p.sys.todo := by
    refine wal_files_live p.sys.db kept.inv.numbered p.sys.todo (fun op member name touched => ?_)
    rw [onLog op member, List.mem_singleton] at touched
    rw [touched]
    decide
  have committed : Throughout (CommittedDb True p.sys.db log) p.volume.disk p.sys.todo := by
    intro done part
    refine agree_committed p.sys.db log _ _ (fun name live => ?_) backed.committed
    rw [disk, apart_frame _ p.sys.disk p.sys.todo apart name live]
    exact apart_frame _ p.sys.disk done (fun op member => apart op (part.subset member)) name live
  rw [← whole] at fits calm ⊢
  exact always_recovers p.sys.cfg p.sys.db split i log kept.held sound fits ledger.sure p.volume proper p.sys.todo
    (fun done part => (calm done part).1) committed (fun done part => (calm done part).2)

section Steps

variable (p next : Power) (ledger : Ledger) (split : Split) (inv : PowerInv p ledger split)

include inv in
theorem power_lock (label : Label) (basic : label.Basic) (entered : LogEntered p (.lock label))
    (stepped : p.Step (.lock label) next) :
    ∃ after, PowerInv next (ledger.next p.sys next.sys (.lock label)) after := by
  obtain ⟨sysStep, volume⟩ := stepped
  obtain ⟨sys, nextVolume⟩ := next
  cases volume
  have calm : EventCalm True p.sys (.lock label) := by
    rintro _ other same picks
    cases same
    rcases picks with rfl | rfl <;> exact basic.elim
  have running := sys_step_running carried_nothing p.sys sys _ (kept_running p.sys split inv.kept) calm sysStep
  cases sysStep with
  | lock _ effect free locked finds done =>
      obtain ⟨middle, first, second, work, rest, early, late, parts⟩ :=
        lock_section p.sys split label effect inv.kept free locked finds done
        (calm trivial label rfl) (fun pick => by rw [pick] at basic; exact basic.elim)
      have fits : ∀ write ∈ split.all ++ label.write.toList, Logged (writeRecord write) := by
        intro write member
        rcases List.mem_append.mp member with old | new
        · exact inv.fits write (inv.whole ▸ old)
        · exact section_fits p.sys split label effect middle first second work rest early late parts write new
      obtain ⟨weathered, merges⟩ :=
        section_weathers p ledger split label effect middle first second work rest early late inv free parts basic
        locked entered fits
      have promised : ledger.due = split.all.length := by rw [inv.due, inv.whole]
      have whole := parts.writes
      have fitsNext := fits
      rw [inv.whole] at whole fitsNext
      refine ⟨_, ⟨running.inv, running.limits, parts.held, parts.journaled⟩, whole, merges, inv.disk, inv.tidy,
        weathered.keeps, inv.names, fitsNext, ?_, fun _ => ?_, weathered.rest, fun flushing => ?_⟩
      · -- Whatever writes here is durable when it returns.
        dsimp only [Ledger.next]
        split
        · rfl
        · next quiet =>
            cases label with
            | put key value sync => cases basic; exact absurd rfl quiet
            | del key sync => cases basic; exact absurd rfl quiet
            | _ => rw [inv.due]; simp [Label.write]
      · have safe := weathered.safe
        rw [whole, ← promised] at safe
        exact safe
      · have quiet := weathered.calm flushing
        rw [whole, ← promised] at quiet
        exact quiet

include inv in
theorem power_io (stepped : p.Step .io next) : PowerInv next ledger split := by
  obtain ⟨sysStep, volume⟩ := stepped
  obtain ⟨sys, nextVolume⟩ := next
  have stays := unlocked_stays p.sys split sys .io inv.kept trivial nofun sysStep
  cases sysStep with
  | io op rest todo =>
      have inside : ∀ other ∈ rest, other ∈ p.sys.todo := fun other member => by simp [todo, member]
      have first : op ∈ p.sys.todo := by simp [todo]
      have made : nextVolume = op.run p.volume := volume.trans (by simp [Sys.performed, todo])
      have resting := inv.rest
      rw [todo] at resting
      subst made
      refine ⟨stays.kept, inv.whole, inv.merges, ?_, tidy_run _ op inv.tidy (inv.keeps op first), fun other member =>
        inv.keeps other (inside other member), ?_, inv.fits, inv.due, fun sure => ?_, resting, fun flushing => ?_⟩
      · rw [run_disk _ inv.tidy.proper, inv.disk]
      · exact within_run p.volume op inv.tidy.proper StoreName inv.names (inv.kept.inv.touches op first)
      · have safe := inv.safe sure
        rw [todo, always_cons] at safe
        exact safe.2
      · obtain ⟨writes, quiet⟩ := inv.calm flushing
        rw [todo, always_cons] at quiet
        exact ⟨fun other member => writes other (inside other member), quiet.2⟩

include inv in
theorem power_work (label : Label) (stepped : p.Step (.work label) next) : PowerInv next ledger split := by
  obtain ⟨sysStep, volume⟩ := stepped
  obtain ⟨sys, nextVolume⟩ := next
  have stays := unlocked_stays p.sys split sys (.work label) inv.kept trivial nofun sysStep
  cases sysStep with
  | work _ effect off done =>
      obtain ⟨⟨middle, ops, back, early, late, first, second, takes, one, two, all, _⟩, _⟩ :=
        step_moves p.sys.cfg p.sys.db label effect done
      obtain ⟨rfl, rfl⟩ := takes_worked label first second takes off
      rw [idle_ops p.sys.cfg middle effect.db back late two, List.append_nil] at all
      have made : nextVolume = runAll p.volume ops := volume.trans (by simp [Sys.performed, done, all])
      rw [all] at stays ⊢
      subst made
      obtain ⟨i, log, sound, backed⟩ := inv.kept.inv.state
      have proper := inv.tidy.proper
      have small := inv.kept.inv.listable.1
      rw [← inv.disk, ← run_all_disk p.volume proper] at backed
      obtain ⟨worked, flushing⟩ :=
        worked_rests p.sys.cfg p.sys.db middle i log split _ ops early (tidy_run_all _ _ inv.tidy inv.keeps) inv.rest
        sound backed inv.kept.inv.numbered small inv.merges one
      obtain ⟨writes, quiet⟩ := inv.calm flushing
      have live : liveFiles effect.db = liveFiles p.sys.db :=
        (idle_live p.sys.cfg middle effect.db back late two).trans worked.live
      have calm := worked_calm p.volume p.sys.db middle split p.sys.todo ops inv.tidy writes worked inv.keeps
        ledger.written ledger.sure
        split.done.length quiet
      have calmNext : Always (fun u => FirmFiles effect.db u ∧ Holding ledger.written ledger.sure split.done.length u)
        (runAll p.volume ops)
          p.sys.todo := by
        simp only [FirmFiles, live]
        exact calm
      have disk : (runAll p.volume ops).disk = applyAll p.sys.disk ops := by rw [run_all_disk _ proper, inv.disk]
      refine ⟨stays.kept, inv.whole, ?_, disk, tidy_run_all _ ops inv.tidy worked.keeps, inv.keeps, ?_, inv.fits,
        inv.due, fun _ => ?_, ?_, fun _ => ⟨writes, calmNext⟩⟩
      · exact basic_merges p.sys.cfg middle effect.db .idle back late (.inl trivial)
          (basic_merges p.sys.cfg p.sys.db middle .worked ops early (.inr rfl) inv.merges one) two
      · refine within_run_all p.volume ops StoreName proper inv.names (fun op member name touched => ?_)
        exact work_store_name p.sys.db i log sound inv.kept.inv.numbered small name
          (worked_touches p.sys.cfg p.sys.db middle i log _ ops early sound backed one op member name touched)
      · exact calm_recovers ⟨_, runAll p.volume ops⟩ ledger split stays.kept inv.whole disk
          (run_all_proper _ proper ops) inv.fits (fun op member => (writes op member).2) calmNext
      · rw [worked_swap p.volume p.sys.db middle split p.sys.todo ops inv.tidy writes worked _ List.prefix_rfl]
        exact idle_rests p.sys.cfg middle effect.db split _ back late two worked.rest

end Steps

theorem power_step (p next : Power) (ledger : Ledger) (event : Event) (inv : ∃ split, PowerInv p ledger split)
    (basic : event.Basic) (entered : LogEntered p event) (stepped : p.Step event next) :
    ∃ split, PowerInv next (ledger.next p.sys next.sys event) split := by
  obtain ⟨split, inv⟩ := inv
  cases event with
  | lock label => exact power_lock p next ledger split inv label basic entered stepped
  | work label => exact ⟨split, power_work p next ledger split inv label stepped⟩
  | io => exact ⟨split, power_io p next ledger split inv stepped⟩
  | _ => exact basic.elim

theorem records_power (p last : Power) (ledger final : Ledger) (events : List Event)
    (inv : ∃ split, PowerInv p ledger split) (basic : ∀ event ∈ events, event.Basic)
    (records : p.Records LogEntered ledger events last final) :
    ∃ split, PowerInv last final split := by
  induction events generalizing p ledger with
  | nil =>
      obtain ⟨rfl, rfl⟩ := records
      exact inv
  | cons event rest ih =>
      obtain ⟨entered, next, stepped, remaining⟩ := records
      exact ih next _ (power_step p next ledger event inv (basic event (by simp)) entered stepped)
        (fun other member => basic other (by simp [member])) remaining

theorem start_rest (w : Volume Bytes) (made : w = runAll Volume.empty (blankOps [] ++ writeManifestLocked DB.fresh)) :
    Rest w DB.fresh ⟨[], [], []⟩ := by
  have proper := run_all_proper Volume.empty empty_proper (blankOps [])
  have shape : runAll Volume.empty (blankOps []) = (Volume.empty.make walName).make (vlogName 0) := rfl
  have cleanWal : (runAll Volume.empty (blankOps [])).Clean walName :=
    clean_run (Volume.empty.make walName) (.create (vlogName 0)) walName (make_proper _ empty_proper _)
      (make_clean _ _) (by decide)
  have cleanLog : (runAll Volume.empty (blankOps [])).Clean (vlogName 0) := by
    rw [shape]
    exact make_clean _ _
  have files : w.disk walName = some ⟨[], 0⟩ ∧ w.disk flushingWalName = none := by
    rw [made, run_all_disk _ empty_proper]
    exact ⟨rfl, rfl⟩
  rw [run_all_append, writeManifestLocked, manifest_replaces] at made
  obtain ⟨manifest, _, settled⟩ := replace_firm (runAll Volume.empty (blankOps [])) manifestTmpName manifestName
    (manifestBytes (manifestOf DB.fresh)) (by decide)
  rw [← made] at manifest settled
  have stays : ∀ name, name ≠ manifestName → name ≠ manifestTmpName → (runAll Volume.empty (blankOps [])).Clean name →
    w.Clean name := by
    intro name notManifest notTmp clean
    rw [made]
    refine clean_run_all _ _ proper name clean ?_
    rw [← manifest_replaces]
    exact manifest_ops_off _ name notManifest notTmp
  have wal : w.Firm walName := ⟨settled _, stays _ (by decide) (by decide) cleanWal⟩
  have flushing := absent_firm w flushingWalName (settled _) files.2
  refine ⟨fun name live => ?_,
    ⟨files.1, fun _ => settled _, fun _ => wal.clean, fun busy => (by cases busy), fun d shown => ?_⟩,
    no_flusher_table _ _ rfl⟩
  · rcases List.mem_cons.mp live with rfl | needed
    · exact manifest
    · rw [List.mem_singleton.mp needed]
      exact ⟨settled _, stays _ (by decide) (by decide) cleanLog⟩
  · beta_reduce
    rw [firm_shows w _ wal d shown, firm_shows w _ flushing d shown, files.1, files.2]
    exact ⟨⟨[], [], [], rfl, Nat.le_refl _, .inl ⟨rfl, rfl⟩, .inr rfl⟩, [], [], rfl, Nat.le_refl _, .inl ⟨rfl, rfl⟩⟩

theorem start_power (cfg : Config) (s : Sys) (starts : s.Starts cfg) : PowerInv ⟨s, Volume.empty⟩ {} ⟨[], [], []⟩ := by
  obtain ⟨db, todo⟩ := start_shape cfg s starts
  have running : Running True (fun _ => True) (fun _ _ => True) s := start_running carried_nothing cfg s starts
  refine ⟨start_kept cfg s starts running.inv, rfl, by rw [db]; rfl, starts.disk.symm, empty_tidy Target, ?_, ?_,
    List.forall_mem_nil _, rfl, fun sure => (by cases sure), ?_, fun flushing => absurd (by rw [db]; rfl) flushing⟩
  · intro op member
    rw [todo] at member
    rcases List.mem_append.mp member with blank | manifest
    · have edits : ∀ other ∈ blankOps [], other = .create walName ∨ other = .create (vlogName 0) := by
        simp [blankOps]
      rcases edits op blank with rfl | rfl
      · exact ⟨fun name edited => by rw [List.mem_singleton.mp edited]; exact wal_plain, List.forall_mem_nil _⟩
      · exact ⟨fun name edited => by rw [List.mem_singleton.mp edited]; exact vlog_plain _, List.forall_mem_nil _⟩
    · exact replace_keeps _ _ _ manifest_tmp_plain (.inl rfl) op manifest
  · intro dir member name there
    rw [List.mem_singleton.mp member] at there
    cases there
  · change Rest (runAll Volume.empty s.todo) s.db _
    rw [db]
    exact start_rest _ (by rw [todo])

theorem power_recovering (p : Power) (ledger : Ledger) (split : Split) (inv : PowerInv p ledger split)
    (returned : 0 < ledger.promised p.sys) : p.volume.Leaves (Recovering ledger.written (ledger.promised p.sys)) := by
  rw [Ledger.promised] at returned ⊢
  by_cases free : p.sys.todo = []
  · obtain ⟨i, log, sound, backed⟩ := inv.kept.inv.state
    have rest := inv.rest
    have fits := inv.fits
    rw [free] at rest
    rw [free, apply_all_nil, ← inv.disk] at backed
    rw [← inv.whole] at fits
    rw [if_pos free, inv.due, ← inv.whole]
    intro d shown
    have holding := rest_holding p.volume _ split rest.logs split.all.length _ (Nat.le_refl _)
      (done_le_all split) (Nat.le_refl _)
    exact committed_recovers p.sys.cfg p.sys.db split i log inv.kept.held sound fits _ d
      (firm_committed p.volume p.sys.db log rest.firm backed.committed d shown) (holding d shown)
  · rw [if_neg free] at returned ⊢
    exact inv.safe returned [] List.nil_prefix

-- As long as every write finds the entry of its log durable, the constructor
-- returns after a loss of power at any step (unless a flush of its own fails) and
-- shows a beginning of the history that has every write that has returned.
theorem power_loss_keeps_writes (cfg : Config) (start last : Power) (events : List Event) (ledger : Ledger)
    (starts : start.sys.Starts cfg) (fresh : start.volume = Volume.empty) (basic : ∀ event ∈ events, event.Basic)
    (records : start.Records LogEntered {} events last ledger) (returned : 0 < ledger.promised last.sys)
    (again : Config) (image : Disk Bytes) (listing : List Bytes) (lost : PowerImage last.volume image)
    (lists : Lists image listing) :
    Reopens again listing image ∧
      ∀ db ops, openDB again listing image = .ok (db, ops) →
        ∃ n, ledger.promised last.sys ≤ n ∧ n ≤ ledger.written.length ∧
          ∀ key, db.get key = .ok (valueOf (ledger.written.take n) key) := by
  obtain ⟨sys, volume⟩ := start
  obtain rfl : volume = Volume.empty := fresh
  obtain ⟨split, inv⟩ := records_power _ last {} ledger events ⟨_, start_power cfg sys starts⟩ basic records
  obtain ⟨d, shown, cut⟩ := lost
  obtain ⟨m, text, ssts, committed, recoverable⟩ := power_recovering last ledger split inv returned d shown
  have after := committed_crash d image m text ssts cut committed
  obtain ⟨file, present, _⟩ := after.prepared.vlog
  refine ⟨opened_reopens again listing image m text ssts after file present (fun name there => ?_) lists,
    fun db ops opened =>
    recoverable_opens again listing ledger.written _ d image m text ssts cut committed recoverable db ops opened⟩
  exact store_name_classified name
    (within_shows last.volume inv.names d shown name (crash_present d image cut name there))

-- The steps of a store that uses no files but the named ones.
def Power.execIn (names : List Bytes) (p : Power) (event : Event) : Option Power :=
  if touchOnly names (p.sys.performed event) then
    (p.sys.exec event).map (fun next => ⟨next, runAll p.volume (p.sys.performed event)⟩)
  else none

def Power.execAllIn (names : List Bytes) (allowed : Power → Event → Bool) :
    Power → Ledger → List Event → Option (Power × Ledger)
  | p, ledger, [] => some (p, ledger)
  | p, ledger, event :: rest =>
      if allowed p event then
        (p.execIn names event).bind (fun next => next.execAllIn names allowed (ledger.next p.sys next.sys event) rest)
      else none

structure PowerConfined (names : List Bytes) (v : Volume Bytes) : Prop where
  proper : v.Proper
  within : v.Within (fun name => name ∈ names)
  valid : v.Valid

theorem empty_confined (names : List Bytes) : PowerConfined names Volume.empty := by
  refine ⟨empty_proper, fun dir member name there => ?_, fun i => Nat.le_refl _⟩
  rw [List.mem_singleton.mp member] at there
  cases there

theorem power_exec_run (names : List Bytes) (allowed : Power → Event → Bool) (p last : Power) (ledger final : Ledger)
    (events : List Event) (confined : PowerConfined names p.volume)
    (done : p.execAllIn names allowed ledger events = some (last, final)) :
    p.Records (fun p event => allowed p event = true) ledger events last final ∧ PowerConfined names last.volume := by
  induction events generalizing p ledger with
  | nil =>
      cases done
      exact ⟨⟨rfl, rfl⟩, confined⟩
  | cons event rest ih =>
      rw [Power.execAllIn] at done
      split at done
      · next here =>
          obtain ⟨next, ran, remaining⟩ := Option.bind_eq_some_iff.mp done
          rw [Power.execIn] at ran
          split at ran
          · next only =>
              obtain ⟨sys, stepped, rfl⟩ := Option.map_eq_some_iff.mp ran
              have touches := touch_only_mem names _ only
              have after : PowerConfined names (runAll p.volume (p.sys.performed event)) :=
                ⟨run_all_proper _ confined.proper _, within_run_all _ _ _ confined.proper confined.within touches,
                  run_all_keeps _ _ Volume.Valid confined.proper confined.valid
                  (fun op _ v _ now => run_valid v op now)⟩
              obtain ⟨records, confinedLast⟩ := ih _ _ after remaining
              exact ⟨⟨here, _, ⟨exec_step p.sys sys event stepped, rfl⟩, records⟩, confinedLast⟩
          · cases ran
      · cases done

-- A loss of power that leaves every byte of the files in some directory.
def wholeFiles (disk : Disk Bytes) :
    Disk Bytes := fun name => (disk name).map (fun file => ⟨file.data, file.data.length⟩)

theorem whole_files_crash (disk : Disk Bytes) (valid : disk.Valid) : CrashImage disk (wholeFiles disk) := by
  intro name
  cases present : disk name with
  | none => simp [wholeFiles, present]
  | some file => exact ⟨file.data.length, valid name file present, Nat.le_refl _, by simp [wholeFiles, present]⟩

def Power.lost (p : Power) (pick : (Bytes → Option Nat) → Bool) : Option (Disk Bytes) :=
  (p.volume.dirs.find? pick).map (fun dir => wholeFiles (p.volume.view dir (fun _ => false)))

theorem lost_image (names : List Bytes) (p : Power) (pick : (Bytes → Option Nat) → Bool) (image : Disk Bytes)
    (confined : PowerConfined names p.volume) (lost : p.lost pick = some image) :
    PowerImage p.volume image ∧ ∀ name, (image name).isSome = true → name ∈ names := by
  obtain ⟨dir, picked, rfl⟩ := Option.map_eq_some_iff.mp lost
  have shown : p.volume.Shows (p.volume.view dir (fun _ => false)) := ⟨dir, List.mem_of_find?_eq_some picked, _, rfl⟩
  have cut := whole_files_crash _ (valid_shows p.volume confined.valid _ shown)
  exact ⟨⟨_, shown, cut⟩, fun name there => within_shows p.volume confined.within _ shown name
    (crash_present _ _ cut name there)⟩

theorem power_records_imp (allowed wider : Power → Event → Prop) (imp : ∀ p event, allowed p event → wider p event)
    (p last : Power) (ledger final : Ledger) (events : List Event)
    (records : p.Records allowed ledger events last final) :
    p.Records wider ledger events last final := by
  induction events generalizing p ledger with
  | nil => exact records
  | cons event rest ih =>
      obtain ⟨here, next, stepped, remaining⟩ := records
      exact ⟨imp p event here, next, stepped, ih next _ remaining⟩

def logEntered (p : Power) : Event → Bool
  | .lock (.put _ _ _) | .lock (.del _ _) => p.volume.dirs.all (fun dir => dir walName == p.volume.live walName)
  | _ => true

theorem log_entered (p : Power) (event : Event) (entered : logEntered p event = true) : LogEntered p event := by
  unfold logEntered at entered
  unfold LogEntered
  split
  · exact fun dir member => beq_iff_eq.mp (List.all_eq_true.mp entered dir member)
  · exact fun dir member => beq_iff_eq.mp (List.all_eq_true.mp entered dir member)
  · trivial

-- A put that seals the memtable, some steps of the flusher and a second put.
def rotatedLog (between : List Event) : List Event :=
  List.replicate 7 .io ++ whole (.put [1] [1, 1] true) 6 ++ between ++ whole (.put [2] [2] true) 2

def flushedTable : List Event :=
  [.lock .flusherSnapshot, .work .flusherSeparate, .work .flusherBuild] ++ List.replicate 5 (.work .flusherIo)

def rotatedStore (between : List Event) (allowed : Power → Event → Bool) : Option (Power × Ledger) :=
  Power.execAllIn (storeNames 2) allowed ⟨Sys.fresh (smallStore 3 1000), Volume.empty⟩ {} (rotatedLog between)

theorem rotated_store_lost (between : List Event) (allowed : Power → Event → Bool) (pick : (Bytes → Option Nat) → Bool)
    (runs : ((rotatedStore between allowed).bind (fun result => (result.1.lost pick).bind (fun image =>
      Sys.opened (storeNames 2) (smallStore 3 1000) image))).isSome = true) :
    ∃ last ledger image next listing, rotatedStore between allowed = some (last, ledger) ∧ last.lost pick = some image ∧
      Sys.opened (storeNames 2) (smallStore 3 1000) image = some next ∧
      Power.Records (fun p event => allowed p event = true) ⟨Sys.fresh (smallStore 3 1000), Volume.empty⟩ {}
      (rotatedLog between) last
        ledger ∧ PowerImage last.volume image ∧ Lists image listing ∧
        openDB (smallStore 3 1000) listing image = .ok (next.db, next.todo) := by
  obtain ⟨next, ran⟩ := Option.isSome_iff_exists.mp runs
  obtain ⟨⟨last, ledger⟩, done, rest⟩ := Option.bind_eq_some_iff.mp ran
  obtain ⟨image, lost, opened⟩ := Option.bind_eq_some_iff.mp rest
  obtain ⟨records, confined⟩ := power_exec_run (storeNames 2) allowed _ last {} ledger _ (empty_confined _) done
  obtain ⟨possible, present⟩ := lost_image (storeNames 2) last pick image confined lost
  obtain ⟨⟨⟨listing, lists, opens⟩, _⟩, _⟩ :=
    opened_opens (storeNames 2) _ image next (by decide +kernel) present opened
  exact ⟨last, ledger, image, next, listing, done, lost, opened, records, possible, lists, opens⟩

-- The second put has returned, but its log has no entry in the directory.
theorem unentered_log_loses_write :
    ∃ last ledger image listing db ops,
      Power.Records (fun _ _ => True) ⟨Sys.fresh (smallStore 3 1000), Volume.empty⟩ {} (rotatedLog []) last ledger ∧
      (∀ event ∈ rotatedLog [], event.Basic) ∧ ledger.written = [([1], some [1, 1]), ([2], some [2])] ∧
      ledger.promised last.sys = 2 ∧ PowerImage last.volume image ∧ Lists image listing ∧
      openDB (smallStore 3 1000) listing image = .ok (db, ops) ∧ db.get [1] = .ok (some [1, 1]) ∧
      db.get [2] = .ok none := by
  obtain ⟨last, ledger, image, next, listing, done, lost, opened, records, possible, lists, opens⟩ :=
    rotated_store_lost [] (fun _ _ => true) (fun dir => (dir walName).isNone) (by decide +kernel)
  have ledgers :
    (rotatedStore [] (fun _ _ => true)).map (fun result => (result.2.written, result.2.promised result.1.sys)) =
      some ([([1], some [1, 1]), ([2], some [2])], 2) := by decide +kernel
  have reads : (rotatedStore [] (fun _ _ => true)).bind
    (fun result => (result.1.lost (fun dir => (dir walName).isNone)).bind (fun image =>
      (Sys.opened (storeNames 2) (smallStore 3 1000) image).map (fun s => (s.db.get [1], s.db.get [2])))) =
      some (.ok (some [1, 1]), .ok none) := by decide +kernel
  rw [done, Option.map_some, Option.some.injEq, Prod.mk.injEq] at ledgers
  rw [done, Option.bind_some, lost, Option.bind_some, opened, Option.map_some, Option.some.injEq,
    Prod.mk.injEq] at reads
  exact ⟨last, ledger, image, listing, next.db, next.todo, power_records_imp _ _ (fun _ _ _ => trivial) _ last
    {} ledger _ records,
    by simp [rotatedLog, whole, Event.Basic,
      Label.Basic], ledgers.1, ledgers.2, possible, lists, opens, reads.1, reads.2⟩

-- The flusher's fsync of the directory makes the entry of the new log durable.
theorem entered_log_keeps_write :
    ∃ last ledger image listing db ops,
      Power.Records LogEntered ⟨Sys.fresh (smallStore 3 1000), Volume.empty⟩ {} (rotatedLog flushedTable) last ledger ∧
      PowerImage last.volume image ∧ openDB (smallStore 3 1000) listing image = .ok (db, ops) ∧
      db.get [2] = .ok (some [2]) := by
  obtain ⟨last, ledger, image, next, listing, done, _, _, records, possible, lists, opens⟩ :=
    rotated_store_lost flushedTable logEntered (fun _ => true) (by decide +kernel)
  have ledgers :
    (rotatedStore flushedTable logEntered).map (fun result => (result.2.written, result.2.promised result.1.sys)) =
      some ([([1], some [1, 1]), ([2], some [2])], 2) := by decide +kernel
  rw [done, Option.map_some, Option.some.injEq, Prod.mk.injEq] at ledgers
  have entered := power_records_imp _ LogEntered log_entered _ last {} ledger _ records
  obtain ⟨_, keeps⟩ := power_loss_keeps_writes (smallStore 3 1000) _ last _ ledger (fresh_starts _) rfl
    (by simp [rotatedLog, flushedTable, whole, Event.Basic, Label.Basic]) entered (by rw [ledgers.2]; decide)
    (smallStore 3 1000) image
    listing possible lists
  obtain ⟨n, above, below, get⟩ := keeps next.db next.todo opens
  refine ⟨last, ledger, image, listing, next.db, next.todo, entered, possible, opens, ?_⟩
  rw [get [2], ledgers.1]
  rw [ledgers.1] at below
  rw [ledgers.2] at above
  have all : n = 2 := Nat.le_antisymm below above
  rw [all]
  decide

end Tombstash
